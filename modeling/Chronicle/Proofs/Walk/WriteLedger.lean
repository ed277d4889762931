import Chronicle.Proofs.Walk.Weight
import Chronicle.Proofs.Walk.WriteTurns

/-!
# What writing uses up

A walk that writes enters an object when it meets it, and never again, so the
objects not met yet pay for the contents still to be written.
-/

namespace Chronicle

open Success

def WriteState.Later (s t : WriteState) : Prop := s.visited.toList <+: t.visited.toList

theorem WriteState.Later.mem {s t : WriteState} (later : s.Later t) {id : Nat}
    (member : id ∈ s.visited) : id ∈ t.visited :=
  Array.mem_toList_iff.mp (later.subset (Array.mem_toList_iff.mpr member))

def WriteGoal.price : WriteGoal → Nat
  | .value _ v | .content _ _ v => v.weight
  | .fields _ vs => weightAll vs

/-- The weight of an object's content, with the call into it. -/
def Heap.weightAt (h : Heap) (id : Nat) : Nat :=
  match h[id]? with
  | some cell => cell.content.weight + 2
  | none => 0

def Heap.unmet (h : Heap) (met : Array Nat) : List Nat → Nat
  | [] => 0
  | id :: ids => (if id ∈ met then 0 else h.weightAt id) + h.unmet met ids

section Unmet

variable {h : Heap} {met met' : Array Nat}

theorem Heap.unmet_le (more : ∀ id ∈ met, id ∈ met') (ids : List Nat) :
    h.unmet met' ids ≤ h.unmet met ids := by
  induction ids with
  | nil => exact Nat.le_refl _
  | cons id ids ih =>
      have known := more id
      simp only [unmet]
      split <;> split <;> first | omega | exact absurd (known ‹_›) ‹_›

theorem Heap.unmet_add_le (more : ∀ id ∈ met, id ∈ met') {id : Nat} {ids : List Nat}
    (listed : id ∈ ids) (new : id ∉ met) (known : id ∈ met') :
    h.unmet met' ids + h.weightAt id ≤ h.unmet met ids := by
  induction ids with
  | nil => contradiction
  | cons other ids ih =>
      simp only [unmet]
      rcases List.mem_cons.mp listed with rfl | listed
      · have rest := h.unmet_le more ids
        rw [if_pos known, if_neg new]
        omega
      · have rest := ih listed
        have kept := more other
        split <;> split <;> first | omega | exact absurd (kept ‹_›) ‹_›

end Unmet

def WriteContext.ledger (c : WriteContext) : Ledger WriteGoal WriteState where
  Later := WriteState.Later
  refl _ := List.prefix_refl _
  trans first second := first.trans second
  Met s id := id ∈ s.visited
  met_of_later later met := later.mem met
  Held _ _ := True
  fuel s := c.heap.unmet s.visited (List.range c.heap.size)
  fuel_le later := Heap.unmet_le (fun _ => later.mem) _
  price := WriteGoal.price

namespace Write

variable {c : WriteContext}

/-! ## Steps that meet no object -/

def Quiet {α : Type} (act : Write α) : Prop :=
  ∀ s, (finalState (act s)).visited = s.visited

section Quiet

variable {α : Type}

theorem quiet_pure (a : α) : Quiet (pure a : Write α) := fun _ => rfl

theorem quiet_throw (e : WalkError) : Quiet (throw e : Write α) := fun _ => rfl

theorem quiet_emit (act : Writing Unit) : Quiet (emit act) := by
  intro s
  unfold emit
  cases act s.out <;> rfl

theorem quiet_unborrowed (id : Nat) (content : Ty) : Quiet (unborrowed c id content) := by
  unfold unborrowed
  split
  · exact quiet_throw _
  · exact quiet_pure _

theorem quiet_asset (content : Ty) (handle : AssetHandle) : Quiet (asset c content handle) := by
  unfold asset
  cases c.assets with
  | none => exact quiet_throw _
  | some resolver =>
      simp only
      cases resolver.pathOf handle with
      | none => exact quiet_throw _
      | some path => exact quiet_emit _

theorem quiet_packed (type : Ty) (format : Plain.PackedFormat) (d : Plain.Datum) :
    Quiet (packed type format d) := by
  unfold packed
  cases Plain.checkOrder d with
  | error e => exact quiet_throw _
  | ok _ =>
      simp only
      cases format.encode d with
      | error reason => exact quiet_throw _
      | ok bs => exact quiet_emit _

theorem quiet_counter : Quiet counter := fun s =>
  quiet_emit (Writing.scalar .u32 s.counter) { s with counter := s.counter + 1 }

theorem Quiet.calm {act : Write α} (quiet : Quiet act) (s : WriteState) :
    c.ledger.Calm s (finalState (act s)) :=
  ⟨⟨[], by simp [quiet s]⟩, fun _ _ => trivial⟩

end Quiet

theorem quiet_whole (type : Ty) {layout : Layout} {v : Value}
    (typed : ∀ content id, layout = .shared content → v = .object id → False)
    (polymorphic : ∀ id, layout = .anyShared → v = .object id → False) :
    Quiet (whole c none type layout v) := by
  unfold whole
  split <;> first
    | exact quiet_pure _
    | exact quiet_emit _
    | exact quiet_throw _
    | exact quiet_asset _ _
    | exact quiet_packed _ _ _
    | exact quiet_counter
    | exact (typed _ _ rfl rfl).elim
    | exact (polymorphic _ rfl rfl).elim

/-! ## Objects -/

theorem calm_reference (id : Nat) (s : WriteState) :
    c.ledger.Calm s (finalState (reference id s)) := by
  refine ⟨?_, fun _ _ => trivial⟩
  change s.Later _
  cases known : s.visited.idxOf? id with
  | some number =>
      rw [reference_known known]
      exact List.prefix_refl _
  | none =>
      by_cases room : s.visited.size < leBound 4
      · rw [(reference_fresh known (b := true)).mpr ⟨room, rfl, rfl⟩]
        simp [WriteState.Later]
      · have refused : reference id s = .error (.outOfRange s.visited.size "reference id") s := by
          rw [reference, get_bind, known]
          simp only [if_pos (Nat.le_of_not_lt room)]
          rfl
        rw [refused]
        exact List.prefix_refl _

theorem visited_of_reference {id : Nat} {s t : WriteState} (run : reference id s = .ok true t) :
    id ∉ s.visited ∧ t.visited = s.visited.push id := by
  cases known : s.visited.idxOf? id with
  | some number => simp [reference_known known] at run
  | none =>
      obtain ⟨_, _, rfl⟩ := (reference_fresh known).mp run
      exact ⟨Array.idxOf?_eq_none_iff.mp known, rfl⟩

namespace Turns

theorem sound_value (type : Ty) (v : Value) :
    (.call .along (.value type v) : WriteTurn Unit).Sound c.ledger (v.weight + 2) :=
  Pending.Sound.call (l := c.ledger) (WriteGoal.value type v) rfl

theorem sound_lift {act : Write Unit} (quiet : Quiet act) (n : Nat) :
    (.lift act : WriteTurn Unit).Sound c.ledger n :=
  .mono (.lift quiet.calm) (Nat.zero_le _)

theorem sound_eachItem (type : Ty) (vs : List Value) :
    (eachItem type vs).Sound c.ledger (weightAll vs) := by
  induction vs with
  | nil => exact .pure _
  | cons v rest ih => exact (sound_value type v).bind fun _ => ih

theorem sound_eachEntry (keyType valueType : Ty) (vs : List Value) :
    (eachEntry keyType valueType vs).Sound c.ledger (weightAll vs) := by
  induction vs with
  | nil => exact .pure _
  | cons e rest ih =>
      cases e with
      | entry k v =>
          refine ((sound_value keyType k).bind fun _ =>
            (sound_value valueType v).bind fun _ => ih).mono ?_
          simp only [weightAll, Value.weight]
          omega
      | _ => exact .throw _

theorem sound_eachField (types : List Ty) (vs : List Value) :
    (eachField types vs).Sound c.ledger (weightAll vs) := by
  induction vs generalizing types with
  | nil =>
      cases types with
      | nil => exact .pure _
      | cons type types => exact .throw _
  | cons v rest ih =>
      cases types with
      | nil => exact .throw _
      | cons type types => exact (sound_value type v).bind fun _ => ih types

theorem sound_reference {id : Nat} {cell : Cell} (found : c.heap[id]? = some cell)
    {before : Write Unit} (quiet : Quiet before) {goal : WriteGoal}
    (price : goal.price = cell.content.weight) :
    (do
      if ← .lift (reference id) then
        .lift before
        .call (.into id) goal : WriteTurn Unit).Sound c.ledger 0 := by
  refine fun s entered held => .lift_bind (calm_reference id s) held (Nat.le_add_right _ _)
    fun first t run calm => ?_
  cases first with
  | false => exact .ends calm.later trivial (c.ledger.fuel_le calm.later)
  | true =>
      obtain ⟨new, met⟩ := visited_of_reference run
      refine .lift_bind (calm.trans (quiet.calm t)) held (Nat.le_add_right _ _)
        fun _ u run' after => ?_
      have still := quiet t
      rw [run'] at still
      have known : id ∈ u.visited := by
        rw [show u.visited = t.visited from still, met]
        exact Array.mem_push_self
      have listed : id ∈ List.range c.heap.size :=
        List.mem_range.mpr (Array.getElem?_eq_some_iff.mp found).1
      have paid := c.heap.unmet_add_le (fun _ => after.later.mem) listed new known
      have weighed : c.heap.weightAt id = cell.content.weight + 2 := by
        rw [Heap.weightAt, found]
      refine .calls 0 after.later ⟨new, known⟩ trivial ?_ fun answer _ _ =>
        .ends (c.ledger.refl _) trivial (Nat.le_refl _)
      change c.heap.unmet u.visited _ + goal.price + 0 + 2 ≤ c.heap.unmet s.visited _
      omega

theorem sound_shared (content : Ty) (id : Nat) : (shared c content id).Sound c.ledger 0 := by
  unfold shared
  cases found : c.heap[id]? with
  | none => exact .throw _
  | some cell =>
      simp only
      split
      · exact sound_reference found (quiet_unborrowed id content) rfl
      · exact .throw _

theorem sound_anyShared (id : Nat) : (anyShared c id).Sound c.ledger 0 := by
  unfold anyShared
  cases found : c.heap[id]? with
  | none => exact .throw _
  | some cell =>
      simp only
      cases c.registry.tag? cell.type with
      | none => exact .throw _
      | some tag => exact sound_reference found (quiet_emit _) rfl

theorem sound_byLayout (type : Ty) (layout : Layout) (v : Value) :
    (byLayout c type layout v).Sound c.ledger v.weight := by
  have opening (act : Writing Unit) := sound_lift (c := c) (quiet_emit act) 0
  unfold byLayout
  split
  case h_1 item vs | h_2 item _ vs =>
    refine ((opening _).bind fun _ => sound_eachItem item vs).mono ?_
    simp [Value.weight]
  case h_3 keyType valueType _ vs =>
    refine ((opening _).bind fun _ => sound_eachEntry keyType valueType vs).mono ?_
    simp [Value.weight]
  case h_4 types vs =>
    refine (sound_eachField types vs).mono ?_
    simp [Value.weight]
  case h_5 item v =>
    refine ((opening _).bind fun _ => sound_value item v).mono ?_
    simp [Value.weight]
  case h_6 types vs =>
    refine (Pending.Sound.call (l := c.ledger) (WriteGoal.fields types vs) rfl).mono ?_
    simp [WriteContext.ledger, WriteGoal.price, Value.weight]
  case h_7 content id => exact (sound_shared content id).mono (Nat.zero_le _)
  case h_8 id => exact (sound_anyShared id).mono (Nat.zero_le _)
  case h_9 typed polymorphic => exact sound_lift (quiet_whole type typed polymorphic) _

theorem sound_body (type : Ty) (v : Value) : (value c type v).Sound c.ledger v.weight := by
  unfold value
  split
  · exact sound_byLayout type _ v
  · exact .throw _

theorem keeps (c : WriteContext) : c.calls.Keeps c.ledger := by
  intro goal
  cases goal with
  | value type v => exact sound_body type v
  | fields types vs => exact sound_eachField types vs
  | content id type v =>
      have free : (.lift (unborrowed c id type) : WriteTurn Unit).Sound c.ledger 0 :=
        sound_lift (quiet_unborrowed id type) 0
      exact (free.bind fun _ => sound_body type v).mono (Nat.le_of_eq (Nat.zero_add _))

end Turns

end Write

end Chronicle
