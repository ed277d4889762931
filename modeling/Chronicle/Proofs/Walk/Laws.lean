import Chronicle.Proofs.Walk.ReadSteps

/-!
# Laws of reading

A walk that reads is put together from few kinds of steps.  A property that the
steps have, and that sequencing and a change of what a failure reports keep, is
one that every walk has.
-/

namespace Chronicle

open Success

def WalkError.TellsOfObjects : WalkError → Prop
  | .alreadyBorrowed _ | .borrowedKey _ | .endlessKey _ => True
  | _ => False

inductive Reading.IsField : ∀ {α : Type}, Reading α → Prop
  | octet : IsField octet
  | word : IsField word
  | bool : IsField bool
  | scalar (s : Scalar) : IsField (scalar s)
  | length : IsField length
  | sized : IsField sized
  | text : IsField text

namespace Reading

/-- A property of reads that taking octets has, and that sequencing and a look at the
limit keep. -/
structure Rules (P : ∀ {α : Type}, Reading α → Prop) : Prop where
  pure : ∀ {α : Type} (a : α), P (Pure.pure a)
  throw : ∀ {α : Type} (e : WalkError), ¬ e.TellsOfObjects →
    P (MonadExcept.throw e : Reading α)
  bind : ∀ {α β : Type} {x : Reading α} {f : α → Reading β}, P x → (∀ a, P (f a)) → P (x >>= f)
  limited : ∀ {α : Type} {f : Nat → Reading α}, (∀ limit, P (f limit)) →
    P (get >>= fun r => f r.limit)
  raw : ∀ n, P (raw n)

namespace Rules

variable {P : ∀ {α : Type}, Reading α → Prop} (rules : Rules P)
include rules

theorem octet : P octet := by
  refine rules.bind (rules.raw 1) fun bs => ?_
  split
  · exact rules.pure _
  · exact rules.throw _ not_false

theorem word : P word := rules.bind (rules.raw 4) fun _ => rules.pure _

theorem length : P length := by
  refine rules.bind rules.word fun n => rules.limited
    (f := fun limit => if limit < n then MonadExcept.throw (.lengthLimit n limit) else Pure.pure n)
    fun limit => ?_
  split
  · exact rules.throw _ not_false
  · exact rules.pure _

theorem sized : P sized := rules.bind rules.length rules.raw

theorem field {α : Type} {act : Reading α} (field : act.IsField) : P act := by
  cases field with
  | octet => exact rules.octet
  | word => exact rules.word
  | scalar s => exact rules.bind (rules.raw _) fun _ => rules.pure _
  | length => exact rules.length
  | sized => exact rules.sized
  | bool =>
      refine rules.bind rules.octet fun b => ?_
      split
      · exact rules.pure _
      · split
        · exact rules.pure _
        · exact rules.throw _ not_false
  | text =>
      refine rules.bind rules.sized fun bs => ?_
      split
      · exact rules.pure _
      · exact rules.throw _ not_false

end Rules

def Advances {α : Type} (act : Reading α) : Prop :=
  ∀ r : ByteReader, ∃ passed, r.Passes passed (finalState (act r))

theorem rules_advances : Rules Advances where
  pure _ r := ⟨[], .refl r⟩
  throw _ _ r := ⟨[], .refl r⟩
  bind {α β} x f first rest r := by
    obtain ⟨passed, passes⟩ := first r
    cases run : x r with
    | error e u =>
        rw [bind_of_error run]
        rw [run] at passes
        exact ⟨passed, passes⟩
    | ok a u =>
        rw [bind_of_ok run]
        rw [run] at passes
        obtain ⟨more, others⟩ := rest a u
        exact ⟨passed ++ more, passes.trans others⟩
  limited rest r := rest r.limit r
  raw n r := by
    cases run : raw n r with
    | ok bs u => exact ⟨bs, (raw_eq_ok.mp run).2⟩
    | error e u =>
        obtain ⟨-, -, rfl⟩ := raw_eq_error.mp run
        exact ⟨[], .refl _⟩

theorem IsField.advances {α : Type} {act : Reading α} (field : act.IsField) : act.Advances :=
  rules_advances.field field

end Reading

namespace Registry

variable {r : Registry} {type : Ty} {e : WalkError}

theorem not_tellsOfObjects_of_resolve (failed : r.resolve type = .error e) :
    ¬ e.TellsOfObjects := by
  cases found : r.find? type <;> simp only [resolve, found, reduceCtorEq] at failed
  cases failed
  exact not_false

theorem not_tellsOfObjects_of_reader (failed : r.reader type = .error e) : ¬ e.TellsOfObjects := by
  cases found : r.resolve type with
  | error e' =>
      rw [reader, found] at failed
      cases failed
      exact not_tellsOfObjects_of_resolve found
  | ok h =>
      cases reads : h.reader <;> simp only [reader, found, bind, Except.bind, reads] at failed <;>
        cases failed
      exact not_false

theorem not_tellsOfObjects_of_initializer (failed : r.initializer type = .error e) :
    ¬ e.TellsOfObjects := by
  cases found : r.resolve type with
  | error e' =>
      rw [initializer, found] at failed
      cases failed
      exact not_tellsOfObjects_of_resolve found
  | ok h =>
      cases makes : h.initializer <;>
        simp only [initializer, found, bind, Except.bind, makes] at failed <;> cases failed
      exact not_false

end Registry

def Layout.IsLeaf : Layout → Prop
  | .seq _ | .set _ _ | .map _ _ _ | .option _ | .record _ | .nested _ | .shared _
  | .anyShared => False
  | _ => True

namespace Read

def relabel {ε ε' α : Type} (g : ε → ε') (act : EStateM ε ReadState α) :
    EStateM ε' ReadState α := fun s =>
  match act s with
  | .ok a t => .ok a t
  | .error e t => .error (g e) t

section Relabel

variable {α β : Type}

theorem keeping_eq (old : β) (act : Read α) : keeping old act = relabel (·, old) act := by
  funext s
  simp only [keeping, relabel]
  cases act s <;> rfl

theorem listSoFar_eq (acc : Array Value) (act : Read α) :
    listSoFar acc act = relabel (·, .list acc.toList) act := by
  funext s
  simp only [listSoFar, relabel]
  cases act s <;> rfl

theorem discarding_eq (act : Filling α α) : discarding act = relabel Prod.fst act := by
  funext s
  simp only [discarding, relabel]
  cases act s <;> rfl

theorem asRecord_eq (act : Filling (List Value) (List Value)) :
    asRecord act =
      (do return .list (← relabel (fun failure => (failure.1, .list failure.2)) act)) := by
  funext s
  cases run : act s with
  | ok vs t => rw [bind_of_ok (by rw [relabel, run])]; simp [asRecord, run]; rfl
  | error e t => rw [bind_of_error (by rw [relabel, run])]; simp [asRecord, run]

theorem eachField_cons_eq (walk : Walker) (type : Ty) (types : List Ty) (v : Value)
    (rest : List Value) :
    eachField walk (type :: types) (v :: rest) = (do
      let v ← relabel (fun failure => (failure.1, failure.2 :: rest)) (walk type v)
      let vs ← relabel (fun failure => (failure.1, v :: failure.2)) (eachField walk types rest)
      return v :: vs) := by
  funext s
  rw [eachField_cons]
  cases run : walk type v s with
  | error e t => rw [bind_of_error (by rw [relabel, run])]
  | ok w t =>
      rw [bind_of_ok (by rw [relabel, run])]
      cases run' : eachField walk types rest t with
      | error e u => rw [bind_of_error (by rw [relabel, run'])]; simp [run']
      | ok ws u => rw [bind_of_ok (by rw [relabel, run'])]; simp [run']; rfl

end Relabel

section InPlace

variable {c : ReadContext} {lower : Lower} {fresh : Ty → Read Value} {type : Ty}

theorem inPlace_of_error {e : WalkError} (found : c.registry.reader type = .error e)
    (old : Value) : inPlace c lower fresh type old = throw (e, old) := by
  cases old with
  | list olds => rw [inPlace, found]; rfl
  | _ =>
      rw [inPlace, found]
      · rfl
      · simp

theorem inPlace_of_layout {layout : Layout} (found : c.registry.reader type = .ok layout)
    {old : Value} (apart : ∀ types olds, layout = .record types → old ≠ .list olds) :
    inPlace c lower fresh type old = byLayout c lower fresh type old layout := by
  cases old with
  | list olds =>
      rw [inPlace, found]
      cases layout with
      | record types => exact absurd rfl (apart types olds rfl)
      | _ => rfl
  | _ =>
      rw [inPlace, found]
      · rfl
      · simp

end InPlace

theorem everyLevel {c : ReadContext} {Q : Walker → Prop}
    (step : ∀ n, (∀ walk, lowerAt c n = some walk → Q walk) → Q (valueAt c n)) (n : Nat) :
    Q (valueAt c n) := by
  induction n with
  | zero => exact step 0 (by simp [lowerAt])
  | succ n ih => exact step (n + 1) (by simpa [lowerAt] using ih)

/-- A property of work, told the cause of each failure, that steps without objects
have and that sequencing and another report of a failure keep. -/
structure Rules (P : ∀ {ε α : Type}, (ε → WalkError) → EStateM ε ReadState α → Prop) : Prop where
  pure : ∀ {ε α : Type} {cause : ε → WalkError} (a : α), P cause (Pure.pure a)
  throw : ∀ {ε α : Type} {cause : ε → WalkError} (e : ε), ¬ (cause e).TellsOfObjects →
    P cause (MonadExcept.throw e : EStateM ε ReadState α)
  bind : ∀ {ε α β : Type} {cause : ε → WalkError} {x : EStateM ε ReadState α}
    {f : α → EStateM ε ReadState β}, P cause x → (∀ a, P cause (f a)) → P cause (x >>= f)
  relabel : ∀ {ε ε' α : Type} {cause : ε → WalkError} {cause' : ε' → WalkError}
    {act : EStateM ε ReadState α} {g : ε → ε'}, (∀ e, cause' (g e) = cause e) → P cause act →
    P cause' (relabel g act)
  look : ∀ {ε α : Type} {cause : ε → WalkError} {f : ReadState → EStateM ε ReadState α},
    (∀ s t : ReadState, s.heap = t.heap → s.filling = t.filling → f s = f t) →
      (∀ s, P cause (f s)) → P cause (get >>= f)
  field : ∀ {α : Type} {act : Reading α}, act.IsField → P id (take act)

structure Law (c : ReadContext)
    (P : ∀ {ε α : Type}, (ε → WalkError) → EStateM ε ReadState α → Prop) : Prop
    extends Rules P where
  ascend : ∀ (container : String) (order : KeyOrder) (acc : Array Value) (key : Value),
    P id (ascend container order acc key)
  marker : P id marker
  blank : ∀ type, P id (make (c.registry.makeBlank type))
  object : ∀ {lower : Lower} (number : Nat) (content : Ty),
    (∀ walk, lower = some walk → ∀ old, P Prod.fst (walk content old)) →
    P id (object c lower number content)

section Steps

variable {c : ReadContext} {lower : Lower} {fresh : Ty → Read Value}
  {P : ∀ {ε α : Type}, (ε → WalkError) → EStateM ε ReadState α → Prop} (rules : Rules P)
include rules

namespace Rules

theorem keeping {α β : Type} (old : β) {act : Read α} (holds : P id act) :
    P Prod.fst (keeping old act) := by
  rw [keeping_eq]
  exact rules.relabel (fun _ => rfl) holds

theorem listSoFar {α : Type} (acc : Array Value) {act : Read α} (holds : P id act) :
    P Prod.fst (listSoFar acc act) := by
  rw [listSoFar_eq]
  exact rules.relabel (fun _ => rfl) holds

theorem discarding {α : Type} {act : Filling α α} (holds : P Prod.fst act) :
    P id (discarding act) := by
  rw [discarding_eq]
  exact rules.relabel (fun _ => rfl) holds

theorem asRecord {act : Filling (List Value) (List Value)} (holds : P Prod.fst act) :
    P Prod.fst (asRecord act) := by
  rw [asRecord_eq]
  exact rules.bind (rules.relabel (fun _ => rfl) holds) fun _ => rules.pure _

theorem kept {α β γ : Type} (old : β) {act : Reading α} {f : α → Filling β γ}
    (field : act.IsField) (rest : ∀ a, P Prod.fst (f a)) :
    P Prod.fst (Read.keeping old (take act) >>= f) :=
  rules.bind (rules.keeping old (rules.field field)) rest

theorem asset (content : Ty) : P id (asset c content) := by
  refine rules.bind (rules.field .text) fun path => ?_
  cases c.assets with
  | none => exact rules.throw _ not_false
  | some resolver =>
      simp only
      cases resolver.load content path with
      | none => exact rules.throw _ not_false
      | some loaded =>
          simp only
          split
          · exact rules.pure _
          · exact rules.throw _ not_false

theorem packed (format : Plain.PackedFormat) : P id (packed format) := by
  refine rules.bind (rules.field .sized) fun bs => ?_
  cases format.decode bs with
  | ok d => exact rules.pure _
  | error reason => exact rules.throw _ not_false

theorem ascend (told : ∀ container found e, verdict container found = .error e →
      P id (MonadExcept.throw e : Read Unit)) (container : String) (order : KeyOrder)
    (acc : Array Value) (key : Value) : P id (ascend container order acc key) := by
  unfold Read.ascend
  split
  · exact rules.pure _
  · refine rules.look (fun s t heap filling => by rw [heap, filling]) fun s => ?_
    cases judged : verdict container (order.compare s.heap s.filling _ key) with
    | ok _ => exact rules.pure _
    | error e => exact told _ _ e judged

theorem leaf {layout : Layout} (bare : layout.IsLeaf) (type : Ty) (old : Value) :
    P Prod.fst (byLayout c lower fresh type old layout) := by
  cases layout with
  | nothing => exact rules.pure _
  | bool => exact rules.kept old .bool fun _ => rules.pure _
  | scalar k => exact rules.kept old (.scalar k) fun _ => rules.pure _
  | text => exact rules.kept old .text fun _ => rules.pure _
  | octets => exact rules.kept old .sized fun _ => rules.pure _
  | counter => exact rules.kept old .word fun _ => rules.pure _
  | lowOctet => exact rules.kept old .word fun _ => rules.pure _
  | asset content => exact rules.keeping old (rules.asset content)
  | packed format => exact rules.keeping old (rules.packed format)
  | refused container alternative => exact rules.throw _ not_false
  | _ => exact bare.elim

end Rules

end Steps

namespace Law

variable {c : ReadContext} {lower : Lower} {fresh : Ty → Read Value}
  {P : ∀ {ε α : Type}, (ε → WalkError) → EStateM ε ReadState α → Prop}

section

variable (law : Law c P)
include law

theorem create {walk : Walker} {type : Ty} (holds : ∀ blank, P Prod.fst (walk type blank)) :
    P id (create c walk type) :=
  law.bind (law.blank type) fun blank => law.discarding (holds blank)

theorem descend {α : Type} {old : α} {act : Walker → Filling α α}
    (holds : ∀ walk, lower = some walk → P Prod.fst (act walk)) :
    P Prod.fst (descend c lower old act) := by
  cases lower with
  | none => exact law.throw _ not_false
  | some walk => exact holds walk rfl

theorem shared (deeper : ∀ walk, lower = some walk → ∀ type old, P Prod.fst (walk type old))
    (content : Ty) : P id (shared c lower content) := by
  refine law.bind law.marker fun m => ?_
  cases m with
  | fresh number => exact law.object number content fun walk level => deeper walk level content
  | existing number id =>
      refine law.look (fun s t same _ => by simp only [same]) fun s => ?_
      split
      · split
        · exact law.pure _
        · exact law.throw _ not_false
      · exact law.throw _ not_false

theorem anyShared
    (deeper : ∀ walk, lower = some walk → ∀ type old, P Prod.fst (walk type old)) :
    P id (anyShared c lower) := by
  refine law.bind law.marker fun m => ?_
  cases m with
  | existing number id => exact law.pure _
  | fresh number =>
      refine law.bind (law.field .word) fun tag => ?_
      cases c.registry.ofTag? tag with
      | none => exact law.throw _ not_false
      | some content => exact law.object number content fun walk level => deeper walk level content

theorem items {next : Read Value} (holds : P id next) (count : Nat) (acc : Array Value) :
    P Prod.fst (items next count acc) := by
  induction count generalizing acc with
  | zero => exact law.pure _
  | succ count ih => exact law.bind (law.listSoFar acc holds) fun v => ih (acc.push v)

theorem ascendingItems {next : Read Value} (container : String) (order : KeyOrder)
    (holds : P id next) (count : Nat) (acc : Array Value) :
    P Prod.fst (ascendingItems container order next count acc) := by
  induction count generalizing acc with
  | zero => exact law.pure _
  | succ count ih =>
      refine law.bind (law.listSoFar acc holds) fun v => ?_
      exact law.bind (law.listSoFar acc (law.ascend container order acc v)) fun _ =>
        ih (acc.push v)

theorem ascendingEntries {nextKey nextValue : Read Value} (container : String)
    (order : KeyOrder) (keys : P id nextKey) (values : P id nextValue) (count : Nat)
    (acc : Array Value) :
    P Prod.fst (ascendingEntries container order nextKey nextValue count acc) := by
  induction count generalizing acc with
  | zero => exact law.pure _
  | succ count ih =>
      refine law.bind (law.listSoFar acc keys) fun k => ?_
      refine law.bind (law.listSoFar acc (law.ascend container order acc k)) fun _ => ?_
      exact law.bind (law.listSoFar acc values) fun v => ih (acc.push (.entry k v))

theorem eachField {walk : Walker} {types : List Ty} {olds : List Value}
    (each : ∀ old ∈ olds, ∀ type, P Prod.fst (walk type old)) :
    P Prod.fst (eachField walk types olds) := by
  induction olds generalizing types with
  | nil =>
      cases types with
      | nil => exact law.pure _
      | cons type types => exact law.throw _ not_false
  | cons old olds ih =>
      cases types with
      | nil => exact law.throw _ not_false
      | cons type types =>
          rw [eachField_cons_eq]
          refine law.bind
            (law.relabel (fun _ => rfl) (each old List.mem_cons_self type)) fun v => ?_
          have tail : P Prod.fst (Read.eachField walk types olds) :=
            ih fun old member => each old (List.mem_cons_of_mem _ member)
          exact law.bind (law.relabel (fun _ => rfl) tail) fun vs => law.pure _

theorem byLayout (parts : ∀ type, P id (fresh type))
    (deeper : ∀ walk, lower = some walk → ∀ type old, P Prod.fst (walk type old)) (type : Ty)
    (old : Value) (layout : Layout) : P Prod.fst (byLayout c lower fresh type old layout) := by
  cases layout with
  | seq item => exact law.kept old .length fun count => law.items (parts item) count #[]
  | set item order =>
      exact law.kept old .length fun count =>
        law.ascendingItems type.name order (parts item) count #[]
  | map keyType valueType order =>
      exact law.kept old .length fun count =>
        law.ascendingEntries type.name order (parts keyType) (parts valueType) count #[]
  | option item =>
      refine law.keeping old (law.bind (law.field .octet) fun octet => ?_)
      split
      · exact law.pure _
      · split
        · exact law.bind (parts item) fun v => law.pure _
        · exact law.throw _ not_false
  | nested types =>
      refine law.descend fun walk level => ?_
      cases old with
      | list olds => exact law.asRecord (law.eachField fun old _ type => deeper walk level type old)
      | _ => exact law.throw _ not_false
  | shared content => exact law.keeping old (law.shared deeper content)
  | anyShared => exact law.keeping old (law.anyShared deeper)
  | record types => exact law.throw _ not_false
  | _ => exact law.leaf (by trivial) type old

theorem inPlace (parts : ∀ type, P id (fresh type))
    (deeper : ∀ walk, lower = some walk → ∀ type old, P Prod.fst (walk type old)) (type : Ty)
    (old : Value) : P Prod.fst (inPlace c lower fresh type old) := by
  induction size : sizeOf old using Nat.strongRecOn generalizing type old with
  | ind k ih =>
      cases found : c.registry.reader type with
      | error e =>
          rw [inPlace_of_error found]
          exact law.throw _ (Registry.not_tellsOfObjects_of_reader found)
      | ok layout =>
          by_cases record : ∃ types olds, layout = .record types ∧ old = .list olds
          · obtain ⟨types, olds, rfl, rfl⟩ := record
            have unfolded : Read.inPlace c lower fresh type (.list olds) =
                Read.asRecord (Read.eachField (Read.inPlace c lower fresh) types olds) :=
              funext fun _ => inPlace_record_eq found olds
            rw [unfolded]
            refine law.asRecord (law.eachField fun old' inside type' => ?_)
            have smaller := List.sizeOf_lt_of_mem inside
            simp only [Value.list.sizeOf_spec] at size
            exact ih (sizeOf old') (by omega) type' old' rfl
          · rw [inPlace_of_layout found fun types olds one two => record ⟨types, olds, one, two⟩]
            exact law.byLayout parts deeper type old layout

theorem value (deeper : ∀ walk, lower = some walk → ∀ type old, P Prod.fst (walk type old))
    (octets : Nat) (type : Ty) (old : Value) : P Prod.fst (value c lower octets type old) := by
  induction octets generalizing type old with
  | zero =>
      rw [value_eq]
      refine law.inPlace (fun _ => ?_) deeper type old
      exact law.throw _ not_false
  | succ octets ih =>
      rw [value_eq]
      exact law.inPlace (fun type => law.create fun blank => ih type blank) deeper type old

theorem freshAt (deeper : ∀ walk, lower = some walk → ∀ type old, P Prod.fst (walk type old))
    (octets : Nat) (type : Ty) : P id (freshAt c lower octets type) := by
  cases octets with
  | zero => exact law.throw _ not_false
  | succ octets => exact law.create fun blank => law.value deeper octets type blank

end

end Law

end Read

end Chronicle
