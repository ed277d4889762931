import Chronicle.Proofs.Loop.Window

/-!
# Rings as bounded lists

Whatever is pushed to a ring and whenever it is cleared, it behaves as the list of
the last records pushed since, as many as it has slots.  Two kinds of steps could
fail on the way, a remainder by the number of slots and the access to a slot; they
are made explicit here and shown to succeed.
-/

namespace Chronicle.Loop.Ring

variable {r : Ring} {pushed : List Record}

/-! ## Steps that could fail -/

def wrap? (r : Ring) (position : Nat) : Option Nat :=
  if r.capacity = 0 then none else some (position % r.capacity)

def push? (r : Ring) (rec : Record) : Option (Record × Ring) := do
  let head ← r.wrap? (r.head + 1)
  let slots := r.slots.setIfInBounds r.head (some rec)
  let size := if r.size < r.capacity then r.size + 1 else r.size
  let stored ← slots[r.head]?.join
  return (stored, ⟨slots, head, size, r.totalPushed + 1⟩)

def lookup? (r : Ring) (index : Nat) : Option (Option Record) :=
  if index < r.size then do r.slots[← r.wrap? (r.start + index)]? else some none

namespace Window

theorem wrap?_eq (window : r.Window pushed) (position : Nat) :
    r.wrap? position = some (position % r.capacity) := by
  rw [wrap?, if_neg (Nat.ne_of_gt window.capacity_pos)]

theorem push?_eq (window : r.Window pushed) (rec : Record) :
    r.push? rec = some (rec, r.push rec) := by
  have slot : r.head < r.slots.size := by
    rw [window.head_eq]
    exact Nat.mod_lt _ window.capacity_pos
  simp only [push?, window.wrap?_eq, Option.bind_eq_bind, Option.bind_some,
    Array.getElem?_setIfInBounds_self_of_lt slot]
  rfl

theorem lookup?_eq (window : r.Window pushed) (index : Nat) :
    r.lookup? index = some (r.get? index) := by
  rw [lookup?, get?]
  split
  · have slot : (r.start + index) % r.capacity < r.slots.size := Nat.mod_lt _ window.capacity_pos
    rw [window.wrap?_eq, Option.bind_eq_bind, Option.bind_some, Array.getElem?_eq_getElem slot]
    rfl
  · rfl

theorem getLast?_rtake (window : r.Window pushed) :
    (pushed.rtake r.capacity).getLast? = pushed.getLast? := by
  have pos := window.capacity_pos
  rw [List.rtake, List.getLast?_drop]
  split
  · rw [List.length_eq_zero_iff.mp (by omega : pushed.length = 0), List.getLast?_nil]
  · rfl

end Window

/-! ## Calls -/

inductive Call where
  | push (rec : Record)
  | clear

namespace Call

def record? : Call → Option Record
  | push rec => some rec
  | clear => none

def apply (r : Ring) : Call → Ring
  | push rec => r.push rec
  | clear => r.clear

def run? (r : Ring) : Call → Option (Option Record × Ring)
  | push rec => do
      let (stored, next) ← r.push? rec
      return (some stored, next)
  | clear => some (none, r.clear)

def recent (pushed : List Record) : Call → List Record
  | push rec => pushed ++ [rec]
  | clear => []

end Call

def serve? : List Call → Ring → Option (List (Option Record) × Ring)
  | [], r => some ([], r)
  | call :: calls, r => do
      let (returned, r) ← call.run? r
      let (later, r) ← serve? calls r
      return (returned :: later, r)

def sinceClear (calls : List Call) : List Record := calls.foldl Call.recent []

/-- How a ring stands after calls: it shows what was pushed since it was cleared last,
and counts all that it was ever given. -/
structure Stands (capacity : Nat) (pushed given : List Record) (r : Ring) : Prop where
  window : r.Window pushed
  capacity_eq : r.capacity = capacity
  totalPushed_eq : r.totalPushed = given.length

namespace Stands

variable {capacity : Nat} {given : List Record}

theorem run?_eq (stands : Stands capacity pushed given r) (call : Call) :
    call.run? r = some (call.record?, call.apply r) := by
  cases call with
  | push rec =>
      rw [Call.run?, stands.window.push?_eq]
      rfl
  | clear => rfl

theorem apply (stands : Stands capacity pushed given r) (call : Call) :
    Stands capacity (call.recent pushed) (given ++ call.record?.toList) (call.apply r) := by
  cases call with
  | push rec =>
      have count : (r.push rec).totalPushed = (given ++ [rec]).length := by
        rw [totalPushed_push, stands.totalPushed_eq, List.length_append, List.length_singleton]
      exact ⟨stands.window.push rec, (capacity_push r rec).trans stands.capacity_eq, count⟩
  | clear =>
      have count : r.totalPushed = (given ++ []).length := by
        rw [List.append_nil, stands.totalPushed_eq]
      exact ⟨stands.window.clear, (capacity_clear r).trans stands.capacity_eq, count⟩

/-- By induction on the calls, with what was pushed and given before them. -/
theorem serve (stands : Stands capacity pushed given r) (calls : List Call) :
    serve? calls r = some (calls.map Call.record?, calls.foldl Call.apply r) ∧
      Stands capacity (calls.foldl Call.recent pushed) (given ++ calls.filterMap Call.record?)
        (calls.foldl Call.apply r) := by
  induction calls generalizing r pushed given with
  | nil => simpa [serve?] using stands
  | cons call calls ih =>
      obtain ⟨served, after⟩ := ih (stands.apply call)
      constructor
      · simp only [serve?, stands.run?_eq, served, Option.bind_eq_bind, Option.bind_some]
        rfl
      · have all : (call :: calls).filterMap Call.record? =
            call.record?.toList ++ calls.filterMap Call.record? := by
          cases call <;> rfl
        rw [all, ← List.append_assoc]
        exact after

end Stands

/-- Whatever is pushed to a ring and whenever it is cleared, no step fails, each push
returns its record, and the ring shows exactly the last of the records pushed since,
as many as there are slots. -/
theorem behaves_as_bounded_list (n : Nat) (calls : List Call) :
    let r := calls.foldl Call.apply (ofCapacity n)
    let kept := (sinceClear calls).rtake (max n 1)
    serve? calls (ofCapacity n) = some (calls.map Call.record?, r) ∧
      kept.length = min (max n 1) (sinceClear calls).length ∧
      r.capacity = max n 1 ∧ r.size = kept.length ∧ r.isEmpty = kept.isEmpty ∧
      (∀ index, r.get? index = kept[index]? ∧ r.lookup? index = some kept[index]?) ∧
      r.latest? = kept.getLast? ∧ r.toList = kept ∧
      r.totalPushed = (calls.filterMap Call.record?).length := by
  have fresh : Stands (max n 1) [] [] (ofCapacity n) := ⟨.ofCapacity n, capacity_ofCapacity n, rfl⟩
  obtain ⟨served, stands⟩ := fresh.serve calls
  have window : Window _ (sinceClear calls) := stands.window
  have size := window.length_rtake
  have shown := window.toList_eq
  have found := window.get?_eq
  have last := window.latest?_eq.trans window.getLast?_rtake.symm
  rw [stands.capacity_eq] at size shown found last
  refine ⟨served, ?_, stands.capacity_eq, size.symm, ?_, fun index => ⟨found index, ?_⟩, last,
    shown, stands.totalPushed_eq⟩
  · rw [size, window.size_eq, stands.capacity_eq, Nat.min_comm]
  · rw [isEmpty, ← size, Bool.eq_iff_iff, decide_eq_true_iff, List.length_eq_zero_iff,
      List.isEmpty_iff]
  · rw [window.lookup?_eq, found]

/-- Three of four records came after the ring was cleared, and two slots keep the last
two of them. -/
example (a b c d : Record) :
    let r := [.push a, .clear, .push b, .push c, .push d].foldl Call.apply (ofCapacity 2)
    r.toList = [c, d] ∧ r.totalPushed = 4 := by
  simp [Call.apply, ofCapacity, push, clear, toList, get?, start, capacity, List.range_succ]

end Chronicle.Loop.Ring
