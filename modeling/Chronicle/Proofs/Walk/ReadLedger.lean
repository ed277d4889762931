import Chronicle.Proofs.Walk.ReadTurns
import Chronicle.Proofs.Walk.Weight

/-!
# What reading uses up

A walk that reads takes its input from the front and binds an object only after
five octets that announce it.  Each octet pays for the calls that it can lead
to: a length for all the items it counts, a marker for the content of one
object.
-/

namespace Chronicle

open Success

/-! ## States that follow each other -/

/-- Some octets were taken, objects kept their types, and more objects were bound,
each after octets of its own. -/
structure ReadState.Later (s t : ReadState) : Prop where
  intro ::
  moved : ∃ (bs : Bytes) (ids : List Nat), s.input.Passes bs t.input ∧
    t.bound.toList = s.bound.toList ++ ids ∧ 5 * ids.length ≤ bs.length ∧
    ∀ id ∈ ids, id < t.heap.size
  types_eq : ∀ (i : Nat) (cell : Cell), s.heap[i]? = some cell →
    ∃ cell', t.heap[i]? = some cell' ∧ cell'.type = cell.type

namespace ReadState.Later

variable {s t u : ReadState}

theorem size_le (later : s.Later t) : s.heap.size ≤ t.heap.size := by
  by_contra more
  have inside : t.heap.size < s.heap.size := by omega
  obtain ⟨cell, found, _⟩ := later.types_eq _ _ (Array.getElem?_eq_getElem inside)
  have := (Array.getElem?_eq_some_iff.mp found).1
  omega

theorem refl (s : ReadState) : s.Later s :=
  ⟨⟨[], [], .refl _, by simp⟩, fun _ cell found => ⟨cell, found, rfl⟩⟩

theorem trans (first : s.Later t) (second : t.Later u) : s.Later u := by
  obtain ⟨bs, ids, passes, bound, paid, here⟩ := first.moved
  obtain ⟨cs, ids', passes', bound', paid', here'⟩ := second.moved
  have wide := second.size_le
  refine ⟨⟨bs ++ cs, ids ++ ids', passes.trans passes', by simp [bound, bound'], ?_, ?_⟩, ?_⟩
  · simp only [List.length_append]
    omega
  · intro id member
    rcases List.mem_append.mp member with member | member
    · have := here id member
      omega
    · exact here' id member
  · intro i cell found
    obtain ⟨cell', found', same⟩ := first.types_eq i cell found
    obtain ⟨cell'', found'', same'⟩ := second.types_eq i cell' found'
    exact ⟨cell'', found'', same'.trans same⟩

theorem of_input {input : ByteReader} {bs : Bytes} (passes : s.input.Passes bs input) :
    s.Later { s with input } :=
  ⟨⟨bs, [], passes, by simp⟩, fun _ cell found => ⟨cell, found, rfl⟩⟩

theorem of_heap {heap : Heap} (grown : s.heap.Extends heap) : s.Later { s with heap } :=
  ⟨⟨[], [], .refl _, by simp⟩, fun i cell found => ⟨cell, grown i cell found, rfl⟩⟩

theorem of_fill (s : ReadState) (id : Nat) (v : Value) (filling : List Nat) :
    s.Later { s with heap := s.heap.fill id v, filling } :=
  ⟨⟨[], [], .refl _, by simp⟩, fun _ _ found => Heap.exists_fill found id v⟩

theorem of_consumes {bs : Bytes} (consumed : s.Consumes bs t) : s.Later t := by
  obtain ⟨passes, heap_eq, bound_eq, _⟩ := consumed
  refine ⟨⟨bs, [], passes, by simp [bound_eq]⟩, fun i cell found => ⟨cell, ?_, rfl⟩⟩
  rw [heap_eq, found]

theorem of_filling (later : s.Later t) (filling : List Nat) : s.Later { t with filling } :=
  ⟨later.moved, later.types_eq⟩

theorem remaining_le (later : s.Later t) : t.input.remaining ≤ s.input.remaining := by
  obtain ⟨bs, _, passes, _⟩ := later.moved
  have := passes.length_eq
  simp only [ByteReader.remaining]
  omega

end ReadState.Later

def ReadGoal.price : ReadGoal → Nat
  | .value _ old => old.weight
  | .fields _ (.list vs) => weightAll vs
  | .fields _ _ => 0

def ReadContext.freshCost (c : ReadContext) : Nat := heaviest c.registry.handlers + 2

def ReadContext.ledger (c : ReadContext) : Ledger ReadGoal ReadState where
  Later := ReadState.Later
  refl := .refl
  trans := .trans
  Met s id := id < s.heap.size
  met_of_later later met := Nat.lt_of_lt_of_le met later.size_le
  Held s entered := s.filling = entered
  fuel s := leBound 4 * c.freshCost * s.input.remaining
  fuel_le later := Nat.mul_le_mul_left _ later.remaining_le
  price := ReadGoal.price

namespace Read

variable {c : ReadContext}

theorem following_calm (c : ReadContext) : ReadState.Following c.ledger.Calm where
  refl := .refl _
  trans := .trans
  of_input passes := ⟨.of_input passes, fun _ held => held⟩
  of_heap grown := ⟨.of_heap grown, fun _ held => held⟩

theorem calm_of_consumes {s t : ReadState} {bs : Bytes} (consumed : s.Consumes bs t) :
    c.ledger.Calm s t :=
  ⟨.of_consumes consumed, fun _ held => consumed.filling_eq.trans held⟩

theorem rules_calm (c : ReadContext) : Rules (Follows c.ledger.Calm) :=
  rules_follows (following_calm c)

namespace Turns

theorem sound_value (type : Ty) (old : Value) :
    (.call .along (.value type old) : ReadTurn (WalkError × Value) Value).Sound c.ledger
      (old.weight + 2) :=
  Pending.Sound.call (l := c.ledger) (ReadGoal.value type old) rfl

theorem sound_create (type : Ty) : (create c type).Sound c.ledger c.freshCost := by
  refine .spend (follows_blank (following_calm c) type) fun s blank t run => ?_
  obtain ⟨heap, made, rfl⟩ := make_eq_ok.mp run
  have weight := Registry.weight_blank_le made
  refine ⟨0, Nat.le_refl _, ((sound_value type blank).relabel Prod.fst).mono ?_⟩
  rw [ReadContext.freshCost]
  omega

theorem sound_items {next : ReadTurn WalkError Value} {cost : Nat}
    (sound : next.Sound c.ledger cost)
    (count : Nat) (acc : Array Value) : (items next count acc).Sound c.ledger (count * cost) := by
  induction count generalizing acc with
  | zero => exact .pure _
  | succ count ih =>
      refine ((sound.relabel _).bind fun v => ih (acc.push v)).mono ?_
      simp only [Nat.succ_mul, Nat.add_comm, Nat.le_refl]

theorem sound_ascend (container : String) (order : KeyOrder) (acc : Array Value) (key : Value) :
    (.lift (listSoFar acc (ascend container order acc key)) :
      ReadTurn (WalkError × Value) Unit).Sound c.ledger 0 :=
  .lift ((rules_calm c).listSoFar acc
    ((rules_calm c).ascend (fun _ _ _ _ => .refl _) container order acc key))

theorem sound_ascendingItems {next : ReadTurn WalkError Value} {cost : Nat} (container : String)
    (order : KeyOrder) (sound : next.Sound c.ledger cost) (count : Nat) (acc : Array Value) :
    (ascendingItems container order next count acc).Sound c.ledger (count * cost) := by
  induction count generalizing acc with
  | zero => exact .pure _
  | succ count ih =>
      refine ((sound.relabel _).bind fun v =>
        (sound_ascend container order acc v).bind fun _ => ih (acc.push v)).mono ?_
      rw [Nat.succ_mul]
      omega

theorem sound_ascendingEntries {nextKey nextValue : ReadTurn WalkError Value} {cost : Nat}
    (container : String) (order : KeyOrder) (keys : nextKey.Sound c.ledger cost)
    (values : nextValue.Sound c.ledger cost) (count : Nat) (acc : Array Value) :
    (ascendingEntries container order nextKey nextValue count acc).Sound c.ledger
      (count * (cost + cost)) := by
  induction count generalizing acc with
  | zero => exact .pure _
  | succ count ih =>
      refine ((keys.relabel _).bind fun k => (sound_ascend container order acc k).bind fun _ =>
        (values.relabel _).bind fun v => ih (acc.push (.entry k v))).mono ?_
      rw [Nat.succ_mul]
      omega

theorem sound_eachField (types : List Ty) (vs : List Value) :
    (eachField types vs).Sound c.ledger (weightAll vs) := by
  induction vs generalizing types with
  | nil =>
      cases types with
      | nil => exact .pure _
      | cons type types => exact .throw _
  | cons v rest ih =>
      cases types with
      | nil => exact .throw _
      | cons type types =>
          exact ((sound_value type v).relabel _).bind fun v =>
            ((ih types).relabel _).bind (c := 0) fun vs => .pure _

theorem sound_record (types : List Ty) (old : Value) :
    (record types old).Sound c.ledger (ReadGoal.fields types old).price := by
  cases old with
  | list vs => exact ((sound_eachField types vs).relabel _).bind (c := 0) fun vs => .pure _
  | _ => exact .throw _

/-! ## Objects -/

/-- A new object was not there before, and is announced in five octets at least. -/
theorem announce_eq_ok {number id : Nat} {content : Ty} {blank : Value} {s t : ReadState}
    (announced : announce c number content s = .ok (id, blank) t) :
    t.input = s.input ∧ s.heap.Extends t.heap ∧ s.heap.size ≤ id ∧ id < t.heap.size ∧
      t.bound = s.bound.push id ∧ blank.weight ≤ heaviest c.registry.handlers := by
  have grown := c.registry.extends_finalState_makeBlank content s.heap
  rw [announce_eq] at announced
  cases made : c.registry.makeBlank content s.heap with
  | error e heap => simp [made] at announced
  | ok blank' heap =>
      by_cases next : number = nextNumber s
      · simp only [made, if_pos next, EStateM.Result.ok.injEq, Prod.mk.injEq] at announced
        obtain ⟨⟨rfl, rfl⟩, rfl⟩ := announced
        rw [made, finalState_ok] at grown
        exact ⟨rfl, grown.trans (heap.extends_allocate content blank'), grown.size_le, by simp, rfl,
          Registry.weight_blank_le made⟩
      · simp [made, if_neg next] at announced

theorem calm_announce (number : Nat) (content : Ty) {s t : ReadState} {bs : Bytes}
    (consumed : s.Consumes bs t) (wide : 5 ≤ bs.length) :
    c.ledger.Calm s (finalState (announce c number content t)) := by
  have grown := c.registry.extends_finalState_makeBlank content t.heap
  have begun : c.ledger.Calm s t := calm_of_consumes consumed
  rw [announce_eq]
  cases made : c.registry.makeBlank content t.heap with
  | error e heap =>
      rw [made] at grown
      exact begun.trans ((following_calm c).of_heap grown)
  | ok blank heap =>
      rw [made] at grown
      have placed : t.heap.Extends (heap.push ⟨content, blank⟩) :=
        grown.trans (heap.extends_allocate content blank)
      by_cases next : number = nextNumber t
      · simp only [if_pos next, finalState_ok]
        refine ⟨⟨⟨bs, [heap.size], consumed.passes, ?_, by simpa using wide, by simp⟩, ?_⟩,
          begun.held⟩
        · simp [consumed.bound_eq]
        · intro i cell found
          rw [← consumed.heap_eq] at found
          exact ⟨cell, placed i cell found, rfl⟩
      · simp only [if_neg next, finalState_error]
        exact begun.trans ((following_calm c).of_heap placed)

theorem fuel_add_le {s t : ReadState} {bs : Bytes} {cost : Nat}
    (passes : s.input.Passes bs t.input) (cheap : cost ≤ leBound 4 * c.freshCost * bs.length) :
    c.ledger.fuel t + cost ≤ c.ledger.fuel s := by
  have split : s.input.remaining = t.input.remaining + bs.length := by
    have := passes.length_eq
    simp only [ByteReader.remaining]
    omega
  simp only [ReadContext.ledger, split, Nat.mul_add]
  omega

theorem freshCost_le {n : Nat} (some : 0 < n) : c.freshCost ≤ leBound 4 * c.freshCost * n := by
  have one : 1 ≤ leBound 4 := by decide
  calc c.freshCost = 1 * c.freshCost * 1 := by omega
    _ ≤ leBound 4 * c.freshCost * n := Nat.mul_le_mul (Nat.mul_le_mul_right _ one) some

theorem sound_object {number : Nat} {content : Ty} {s t : ReadState} {bs : Bytes}
    {entered : List Nat} (consumed : s.Consumes bs t) (wide : 5 ≤ bs.length)
    (held : c.ledger.Held s entered) :
    (object c number content t).Sound c.ledger entered s (c.ledger.fuel s) := by
  refine .lift_bind (calm_announce number content consumed wide) held (Nat.le_refl _)
    fun new u announced calm => ?_
  obtain ⟨id, blank⟩ := new
  obtain ⟨input, _, fresh, here, _, weight⟩ := announce_eq_ok announced
  have still : u.filling = entered := calm.held _ held
  refine .calls 0 (calm.later.of_filling _) ⟨?_, here⟩ (congrArg (id :: ·) still) ?_
    fun answer after _ => ?_
  · change ¬ id < s.heap.size
    rw [← consumed.heap_eq]
    omega
  · have cheap : c.freshCost ≤ leBound 4 * c.freshCost * bs.length := freshCost_le (by omega)
    have paid := fuel_add_le (t := u) (input ▸ consumed.passes) cheap
    simp only [ReadContext.freshCost] at paid
    change c.ledger.fuel u + blank.weight + 0 + 2 ≤ _
    omega
  · cases answer <;> exact .ends (.of_fill _ _ _ _) still (Nat.le_refl _)

theorem calm_known (number id : Nat) (content : Ty) (s : ReadState) :
    c.ledger.Calm s (finalState (known number id content s)) := by
  unfold known
  rw [get_bind]
  cases s.heap[id]? with
  | none => exact .refl _ s
  | some cell =>
      simp only
      split <;> exact .refl _ s

theorem sound_marker {f : Marker → ReadTurn WalkError Value}
    (fresh : ∀ {s t bs entered} number, s.Consumes bs t → 5 ≤ bs.length →
      c.ledger.Held s entered → (f (.fresh number) t).Sound c.ledger entered s (c.ledger.fuel s))
    (existing : ∀ number id, (f (.existing number id)).Sound c.ledger 0) :
    (.lift marker >>= f : ReadTurn WalkError Value).Sound c.ledger 0 := by
  refine fun s entered held => .lift_bind (follows_marker (following_calm c) s) held
    (Nat.le_add_right _ _) fun m t run calm => ?_
  rcases marker_eq_ok.mp run with ⟨rfl, consumed⟩ | ⟨number, id, rfl, _, _, consumed⟩
  · exact fresh _ consumed (by simp) held
  · exact .earlier calm.later
      ((existing number id t entered (calm.held _ held)).mono (c.ledger.fuel_le calm.later))

theorem sound_shared (content : Ty) : (shared c content).Sound c.ledger 0 :=
  sound_marker (fun _ consumed wide held => sound_object consumed wide held)
    fun number id => .lift (calm_known number id content)

theorem sound_anyShared : (anyShared c).Sound c.ledger 0 := by
  refine sound_marker (fun {s t bs entered} number consumed wide held => ?_)
    fun number id => .pure _
  have begun : c.ledger.Calm s t := calm_of_consumes consumed
  refine .lift_bind (begun.trans ((rules_calm c).field .word t)) held (Nat.le_refl _)
    fun tag u run calm => ?_
  cases c.registry.ofTag? tag with
  | none => exact .ends calm.later (calm.held _ held) (c.ledger.fuel_le calm.later)
  | some content =>
      have tagged := (take_word.mp run).2
      exact sound_object (ReadState.consumes_append.mpr ⟨t, consumed, tagged⟩)
        (by simp only [List.length_append]; omega) held

theorem sound_counted {f : Nat → ReadTurn (WalkError × Value) Value} (old : Value)
    (rest : ∀ count, (f count).Sound c.ledger (count * (c.freshCost + c.freshCost))) :
    (.lift (keeping old (take Reading.length)) >>= f :
      ReadTurn (WalkError × Value) Value).Sound c.ledger 0 := by
  refine .spend ((rules_calm c).keeping old ((rules_calm c).field .length)) fun s count t run => ?_
  obtain ⟨⟨_, below⟩, consumed⟩ := take_length.mp (keeping_eq_ok.mp run)
  refine ⟨_, fuel_add_le consumed.passes ?_, rest count⟩
  calc count * (c.freshCost + c.freshCost)
      ≤ leBound 4 * (c.freshCost + c.freshCost) := Nat.mul_le_mul_right _ (Nat.le_of_lt below)
    _ ≤ leBound 4 * (c.freshCost * 4) := Nat.mul_le_mul_left _ (by omega)
    _ = leBound 4 * c.freshCost * (leBytes 4 count).length := by
        rw [length_leBytes, Nat.mul_assoc]

theorem sound_option (item : Ty) : (do
    let octet ← .lift (take Reading.octet)
    if octet = 0 then return .absent
    else if octet = 1 then return .present (← create c item)
    else .lift (throw (.invalidTag "option" octet)) : ReadTurn WalkError Value).Sound
      c.ledger 0 := by
  refine .spend ((rules_calm c).field .octet) fun s octet t run => ?_
  have consumed := take_octet.mp run
  refine ⟨_, fuel_add_le consumed.passes (freshCost_le (by simp)), ?_⟩
  split
  · exact .pure _
  · split
    · exact (sound_create item).bind fun v => .pure _
    · exact .throw _

theorem sound_byLayout (type : Ty) (old : Value) (layout : Layout) :
    (byLayout c type old layout).Sound c.ledger old.weight := by
  have double (count : Nat) : count * c.freshCost ≤ count * (c.freshCost + c.freshCost) :=
    Nat.mul_le_mul_left _ (Nat.le_add_left _ _)
  cases layout with
  | seq item =>
      exact (sound_counted old fun count =>
        (sound_items (sound_create item) count #[]).mono (double count)).mono (Nat.zero_le _)
  | set item order =>
      exact (sound_counted old fun count =>
        (sound_ascendingItems type.name order (sound_create item) count #[]).mono
          (double count)).mono (Nat.zero_le _)
  | map keyType valueType order =>
      exact (sound_counted old fun count => sound_ascendingEntries type.name order
        (sound_create keyType) (sound_create valueType) count #[]).mono (Nat.zero_le _)
  | option item => exact ((sound_option item).relabel _).mono (Nat.zero_le _)
  | record types =>
      refine (sound_record types old).mono ?_
      cases old <;> simp [ReadGoal.price, Value.weight]
  | nested types =>
      refine (Pending.Sound.call (l := c.ledger) (ReadGoal.fields types old) rfl).mono ?_
      cases old <;> simp [ReadContext.ledger, ReadGoal.price, Value.weight]
  | shared content => exact ((sound_shared content).relabel _).mono (Nat.zero_le _)
  | anyShared => exact (sound_anyShared.relabel _).mono (Nat.zero_le _)
  | _ => exact .mono (.lift ((rules_calm c).leaf (by trivial) type old)) (Nat.zero_le _)

theorem keeps (c : ReadContext) : c.calls.Keeps c.ledger := by
  intro goal
  cases goal with
  | fields types old => exact sound_record types old
  | value type old =>
      have unfolded : c.calls.body (.value type old) = body c (.value type old) := rfl
      rw [unfolded, body]
      cases c.registry.reader type with
      | ok layout => exact sound_byLayout type old layout
      | error e => exact .throw _

end Turns

end Read

end Chronicle
