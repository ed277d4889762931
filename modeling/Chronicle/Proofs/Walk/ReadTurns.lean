import Chronicle.Proofs.Walk.Moments
import Chronicle.Proofs.Walk.Unfolding

/-!
# Reading in turns

The walk that reads as one that calls: for each value it fills, and for the
content of each object it makes.  What a call does up to its next call is the
work of the walk itself, and with its calls answered it has the walk's outcome.
-/

namespace Chronicle

open Success

inductive ReadGoal where
  | value (type : Ty) (old : Value)
  /-- The fields of a record on a level of their own. -/
  | fields (types : List Ty) (old : Value)

namespace ReadGoal

def old : ReadGoal → Value
  | .value _ old | .fields _ old => old

def name : ReadGoal → String
  | .value type _ => type.name
  | .fields _ _ => "record"

end ReadGoal

abbrev ReadTurn (ε α : Type) : Type := Pending ReadGoal ReadState (WalkError × Value) Value ε α

namespace Read.Turns

variable (c : ReadContext)

def create (type : Ty) : ReadTurn WalkError Value := do
  let blank ← .lift (make (c.registry.makeBlank type))
  Pending.relabel Prod.fst (.call .along (.value type blank))

def items (next : ReadTurn WalkError Value) : Nat → Array Value → ReadTurn (WalkError × Value) Value
  | 0, acc => return .list acc.toList
  | count + 1, acc => do
      let v ← Pending.relabel (·, .list acc.toList) next
      items next count (acc.push v)

def ascendingItems (container : String) (order : KeyOrder) (next : ReadTurn WalkError Value) :
    Nat → Array Value → ReadTurn (WalkError × Value) Value
  | 0, acc => return .list acc.toList
  | count + 1, acc => do
      let v ← Pending.relabel (·, .list acc.toList) next
      .lift (listSoFar acc (ascend container order acc v))
      ascendingItems container order next count (acc.push v)

def ascendingEntries (container : String) (order : KeyOrder)
    (nextKey nextValue : ReadTurn WalkError Value) :
    Nat → Array Value → ReadTurn (WalkError × Value) Value
  | 0, acc => return .list acc.toList
  | count + 1, acc => do
      let k ← Pending.relabel (·, .list acc.toList) nextKey
      .lift (listSoFar acc (ascend container order acc k))
      let v ← Pending.relabel (·, .list acc.toList) nextValue
      ascendingEntries container order nextKey nextValue count (acc.push (.entry k v))

def eachField : List Ty → List Value → ReadTurn (WalkError × List Value) (List Value)
  | [], [] => return []
  | type :: types, v :: rest => do
      let v ← Pending.relabel (fun failure => (failure.1, failure.2 :: rest))
        (.call .along (.value type v))
      let vs ← Pending.relabel (fun failure => (failure.1, v :: failure.2)) (eachField types rest)
      return v :: vs
  | _, vs => .lift (throw (.typeMismatch "record", vs))

def record (types : List Ty) : Value → ReadTurn (WalkError × Value) Value
  | .list vs => do
      let vs ← Pending.relabel (fun failure => (failure.1, .list failure.2)) (eachField types vs)
      return .list vs
  | old => .lift (throw (.typeMismatch "record", old))

def enter (id : Nat) (content : Ty) (blank : Value) : ReadTurn WalkError Value := fun s =>
  .calls (.into id) (.value content blank) { s with filling := id :: s.filling } fun
    | .ok v t =>
        .ends (.ok (.object id) { t with heap := t.heap.fill id v, filling := s.filling })
    | .error (e, v) t =>
        .ends (.error e { t with heap := t.heap.fill id v, filling := s.filling })

def object (number : Nat) (content : Ty) : ReadTurn WalkError Value := do
  let new ← .lift (announce c number content)
  enter new.1 content new.2

def known (number id : Nat) (content : Ty) : Read Value := do
  match (← get).heap[id]? with
  | some cell =>
      if cell.type = content then return .object id
      else throw (.referenceTypeMismatch number content.name)
  | none => throw (.referenceTypeMismatch number content.name)

def shared (content : Ty) : ReadTurn WalkError Value := do
  match ← .lift marker with
  | .existing number id => .lift (known number id content)
  | .fresh number => object c number content

def anyShared : ReadTurn WalkError Value := do
  match ← .lift marker with
  | .existing _ id => return .object id
  | .fresh number => do
      let tag ← .lift (take Reading.word)
      match c.registry.ofTag? tag with
      | none => .lift (throw (.unknownTypeTag tag))
      | some content => object c number content

def byLayout (type : Ty) (old : Value) : Layout → ReadTurn (WalkError × Value) Value
  | .seq item => do
      let count ← .lift (keeping old (take Reading.length))
      items (create c item) count #[]
  | .set item order => do
      let count ← .lift (keeping old (take Reading.length))
      ascendingItems type.name order (create c item) count #[]
  | .map key value order => do
      let count ← .lift (keeping old (take Reading.length))
      ascendingEntries type.name order (create c key) (create c value) count #[]
  | .option item => Pending.relabel (·, old) do
      let octet ← .lift (take Reading.octet)
      if octet = 0 then return .absent
      else if octet = 1 then return .present (← create c item)
      else .lift (throw (.invalidTag "option" octet))
  | .record types => record types old
  | .nested types => .call .down (.fields types old)
  | .shared content => Pending.relabel (·, old) (shared c content)
  | .anyShared => Pending.relabel (·, old) (anyShared c)
  -- Other layouts call for nothing.
  | layout => .lift (Read.byLayout c none (fun _ => throw (.unexpectedEnd 1 0)) type old layout)

def body : ReadGoal → ReadTurn (WalkError × Value) Value
  | .value type old =>
      match c.registry.reader type with
      | .ok layout => byLayout c type old layout
      | .error e => .lift (throw (e, old))
  | .fields types old => record types old

end Read.Turns

/-- The walk that reads.  The content of an object is borrowed while it is read,
and to borrow it a second time is an error. -/
def ReadContext.calls (c : ReadContext) : Calls ReadGoal ReadState (WalkError × Value) Value where
  body := Read.Turns.body c
  limit := c.maxDepth
  tooDeep goal := (.depthExceeded c.maxDepth, goal.old)
  taken goal := some (.alreadyBorrowed goal.name, goal.old)

namespace Read

variable {c : ReadContext}

def goalAt (c : ReadContext) (n : Nat) : ReadGoal → Filling Value Value
  | .value type old => valueAt c n type old
  | .fields types (.list vs) => asRecord (eachField (valueAt c n) types vs)
  | .fields _ old => throw (.typeMismatch "record", old)

namespace Turns

section Answers

variable {n : Nat} {answer : Way → ReadGoal → Filling Value Value}

@[simp] theorem run_relabel {ε ε' α : Type} (g : ε → ε') (x : ReadTurn ε α) :
    (x.relabel g).run answer = Read.relabel g (x.run answer) := by
  funext s
  rw [Pending.run, Pending.relabel, Turn.run_thenDo]
  unfold Read.relabel Pending.run
  cases (x s).run answer <;> rfl

theorem run_items (next : ReadTurn WalkError Value) (count : Nat) (acc : Array Value) :
    (items next count acc).run answer = Read.items (next.run answer) count acc := by
  induction count generalizing acc with
  | zero => rfl
  | succ count ih => simp only [items, Read.items, Pending.run_bind, run_relabel, listSoFar_eq, ih]

theorem run_ascendingItems (container : String) (order : KeyOrder)
    (next : ReadTurn WalkError Value) (count : Nat) (acc : Array Value) :
    (ascendingItems container order next count acc).run answer =
      Read.ascendingItems container order (next.run answer) count acc := by
  induction count generalizing acc with
  | zero => rfl
  | succ count ih =>
      simp only [ascendingItems, Read.ascendingItems, Pending.run_bind, Pending.run_lift,
        run_relabel, listSoFar_eq, ih]

theorem run_ascendingEntries (container : String) (order : KeyOrder)
    (nextKey nextValue : ReadTurn WalkError Value) (count : Nat) (acc : Array Value) :
    (ascendingEntries container order nextKey nextValue count acc).run answer =
      Read.ascendingEntries container order (nextKey.run answer) (nextValue.run answer) count
        acc := by
  induction count generalizing acc with
  | zero => rfl
  | succ count ih =>
      simp only [ascendingEntries, Read.ascendingEntries, Pending.run_bind, Pending.run_lift,
        run_relabel, listSoFar_eq, ih]

theorem run_eachField {walk : Walker}
    (along : ∀ type old, answer .along (.value type old) = walk type old) (types : List Ty)
    (vs : List Value) : (eachField types vs).run answer = Read.eachField walk types vs := by
  induction types generalizing vs with
  | nil => cases vs <;> rfl
  | cons type types ih =>
      cases vs with
      | nil => rfl
      | cons v rest =>
          simp only [eachField, eachField_cons_eq, Pending.run_bind, run_relabel, Pending.run_call,
            along, ih, Pending.run_pure]

theorem run_create {walk : Walker}
    (along : ∀ type old, answer .along (.value type old) = walk type old) (type : Ty) :
    (create c type).run answer = Read.create c walk type := by
  simp only [create, Read.create, Pending.run_bind, Pending.run_lift, run_relabel, Pending.run_call,
    along, discarding_eq]

theorem run_object {lower : Lower}
    (into : ∀ id content blank, answer (.into id) (.value content blank) =
      descend c lower blank fun walk => walk content blank) (number : Nat) (content : Ty) :
    (object c number content).run answer = Read.object c lower number content := by
  funext s
  rw [object_eq, object, Pending.run_bind, Pending.run_lift]
  cases announced : announce c number content s with
  | error e t => rw [bind_of_error announced]
  | ok new t =>
      obtain ⟨id, blank⟩ := new
      rw [bind_of_ok announced, Pending.run, enter, Turn.run, into]
      simp only
      cases descend c lower blank (fun walk => walk content blank)
        { t with filling := id :: t.filling } <;> rfl

theorem run_shared {lower : Lower}
    (into : ∀ id content blank, answer (.into id) (.value content blank) =
      descend c lower blank fun walk => walk content blank) (content : Ty) :
    (shared c content).run answer = Read.shared c lower content := by
  rw [shared, Read.shared, Pending.run_bind, Pending.run_lift]
  congr 1
  funext m
  cases m with
  | fresh number => exact run_object into number content
  | existing number id => rfl

theorem run_anyShared {lower : Lower}
    (into : ∀ id content blank, answer (.into id) (.value content blank) =
      descend c lower blank fun walk => walk content blank) :
    (anyShared c).run answer = Read.anyShared c lower := by
  rw [anyShared, Read.anyShared, Pending.run_bind, Pending.run_lift]
  congr 1
  funext m
  cases m with
  | existing number id => rfl
  | fresh number =>
      simp only [Pending.run_bind, Pending.run_lift]
      congr 1
      funext tag
      cases c.registry.ofTag? tag with
      | none => rfl
      | some content => exact run_object into number content

theorem run_record {walk : Walker}
    (along : ∀ type old, answer .along (.value type old) = walk type old) (types : List Ty)
    (vs : List Value) :
    (record types (.list vs)).run answer = Read.asRecord (Read.eachField walk types vs) := by
  simp only [record, Pending.run_bind, run_relabel, run_eachField along, Pending.run_pure,
    asRecord_eq]

end Answers

theorem answer_along (c : ReadContext) (n : Nat) (type : Ty) (old : Value) :
    c.calls.answer (goalAt c) n .along (.value type old) = valueAt c n type old := by
  cases n <;> rfl

theorem answer_into (c : ReadContext) (n id : Nat) (content : Ty) (blank : Value) :
    c.calls.answer (goalAt c) n (.into id) (.value content blank) =
      descend c (lowerAt c n) blank fun walk => walk content blank := by
  cases n <;> rfl

theorem run_byLayout {n : Nat} {type : Ty} {layout : Layout}
    (found : c.registry.reader type = .ok layout) (old : Value) :
    (byLayout c type old layout).run (c.calls.answer (goalAt c) n) = valueAt c n type old := by
  have along := answer_along c n
  have into := answer_into c n
  rw [valueAt_unfold]
  by_cases record : ∃ types olds, layout = .record types ∧ old = .list olds
  · obtain ⟨types, olds, rfl, rfl⟩ := record
    have deep : inPlace c (lowerAt c n) (Read.create c (valueAt c n)) = valueAt c n := by
      funext type old
      rw [valueAt_unfold]
    funext s
    rw [inPlace_record_eq found, deep, byLayout, run_record along]
  · have apart := fun types olds one two => record ⟨types, olds, one, two⟩
    rw [inPlace_of_layout found apart]
    cases layout with
    | seq item =>
        simp only [byLayout, Read.byLayout, Pending.run_bind, Pending.run_lift, run_items,
          run_create along]
    | set item order =>
        simp only [byLayout, Read.byLayout, Pending.run_bind, Pending.run_lift, run_ascendingItems,
          run_create along]
    | map keyType valueType order =>
        simp only [byLayout, Read.byLayout, Pending.run_bind, Pending.run_lift,
          run_ascendingEntries, run_create along]
    | option item =>
        simp only [byLayout, Read.byLayout, run_relabel, keeping_eq, Pending.run_bind,
          Pending.run_lift]
        congr 2
        funext octet
        split
        · rfl
        · split
          · simp only [Pending.run_bind, run_create along]
            rfl
          · rfl
    | record types =>
        cases old with
        | list olds => exact absurd rfl (apart types olds rfl)
        | _ => rfl
    | nested types =>
        simp only [byLayout, Read.byLayout, Pending.run_call]
        cases n <;> cases old <;> rfl
    | shared content => rw [byLayout, Read.byLayout, run_relabel, run_shared into, keeping_eq]
    | anyShared => rw [byLayout, Read.byLayout, run_relabel, run_anyShared into, keeping_eq]
    | _ => rfl

theorem answers (c : ReadContext) : c.calls.Answers (goalAt c) := by
  intro n goal
  cases goal with
  | fields types old =>
      cases old with
      | list vs => exact run_record (answer_along c n) types vs
      | _ => rfl
  | value type old =>
      cases found : c.registry.reader type with
      | ok layout =>
          have unfolded : c.calls.body (.value type old) = byLayout c type old layout := by
            simp only [ReadContext.calls, body, found]
          rw [unfolded]
          exact run_byLayout found old
      | error e =>
          have unfolded : c.calls.body (.value type old) = .lift (throw (e, old)) := by
            simp only [ReadContext.calls, body, found]
          rw [unfolded, Pending.run_lift, goalAt, valueAt_unfold, inPlace_of_error found]

end Turns

end Read

end Chronicle
