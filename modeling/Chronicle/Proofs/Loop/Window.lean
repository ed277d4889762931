import Chronicle.Loop.Ring
import Mathlib.Data.List.DropRight

/-!
# The window of a ring

A ring shows the last of the records pushed to it since it was empty, as many as it
has slots.  The record pushed `i`-th stands in the slot `i % capacity` until one
that comes `capacity` records later takes its place.
-/

namespace Chronicle.Loop.Ring

variable {r : Ring} {pushed : List Record}

/-- What a ring keeps of the records pushed to it since it was empty. -/
structure Window (r : Ring) (pushed : List Record) : Prop where
  capacity_pos : 0 < r.capacity
  size_eq : r.size = min pushed.length r.capacity
  head_eq : r.head = pushed.length % r.capacity
  slot_eq : ∀ i (h : i < pushed.length), pushed.length ≤ i + r.capacity →
    r.slots[i % r.capacity]? = some (some pushed[i])

theorem mod_ne {c i n : Nat} (before : i < n) (near : n < i + c) : i % c ≠ n % c := by
  intro same
  have divides : c ∣ n - i := Nat.dvd_of_mod_eq_zero (Nat.sub_mod_eq_zero_of_mod_eq same.symm)
  have := Nat.le_of_dvd (by omega) divides
  omega

theorem filterMap_range_getElem? (rs : List Record) :
    (List.range rs.length).filterMap (fun i => rs[i]?) = rs := by
  induction rs with
  | nil => rfl
  | cons rec rs ih =>
      rw [List.length_cons, List.range_succ_eq_map, List.filterMap_cons, List.filterMap_map]
      exact congrArg (rec :: ·) ih

namespace Window

theorem ofCapacity (n : Nat) : (Ring.ofCapacity n).Window [] where
  capacity_pos := by
    rw [capacity_ofCapacity]
    omega
  size_eq := by simp [Ring.ofCapacity]
  head_eq := by simp [Ring.ofCapacity]
  slot_eq := by simp

theorem push (window : r.Window pushed) (rec : Record) : (r.push rec).Window (pushed ++ [rec]) where
  capacity_pos := by simpa using window.capacity_pos
  size_eq := by
    rw [capacity_push, List.length_append, List.length_singleton]
    simp only [Ring.push, window.size_eq]
    split <;> omega
  head_eq := by
    rw [capacity_push, List.length_append, List.length_singleton, Ring.push, window.head_eq,
      Nat.mod_add_mod]
  slot_eq := by
    intro i before kept
    rw [capacity_push] at kept ⊢
    rw [List.length_append, List.length_singleton] at before kept
    have slot : pushed.length % r.capacity < r.slots.size := Nat.mod_lt _ window.capacity_pos
    rw [Ring.push, window.head_eq]
    rcases Nat.lt_succ_iff_lt_or_eq.mp before with older | rfl
    · rw [Array.getElem?_setIfInBounds_ne (mod_ne older (by omega)).symm,
        window.slot_eq i older (by omega), List.getElem_append_left older]
    · rw [Array.getElem?_setIfInBounds_self_of_lt slot, List.getElem_concat_length rfl]

theorem clear (window : r.Window pushed) : r.clear.Window [] where
  capacity_pos := by simpa using window.capacity_pos
  size_eq := by simp [Ring.clear]
  head_eq := by simp [Ring.clear]
  slot_eq := by simp

/-- The slot of an index, counted from the oldest record, is the one in which the
record with that index was put. -/
theorem start_add_mod (window : r.Window pushed) (index : Nat) :
    (r.start + index) % r.capacity = (pushed.length - r.capacity + index) % r.capacity := by
  rw [start, window.size_eq]
  split
  · rw [Nat.sub_eq_zero_of_le (by omega)]
  · have full : pushed.length - r.capacity + index + r.capacity = pushed.length + index := by omega
    rw [window.head_eq, Nat.mod_add_mod, ← full, Nat.add_mod_right]

theorem get?_eq (window : r.Window pushed) (index : Nat) :
    r.get? index = (pushed.rtake r.capacity)[index]? := by
  rw [get?, List.rtake, List.getElem?_drop, window.size_eq]
  split
  · have place : pushed.length - r.capacity + index < pushed.length := by omega
    rw [window.start_add_mod, window.slot_eq _ place (by omega), List.getElem?_eq_getElem place]
    rfl
  · rw [List.getElem?_eq_none (by omega)]

theorem length_rtake (window : r.Window pushed) : (pushed.rtake r.capacity).length = r.size := by
  rw [List.rtake, List.length_drop, window.size_eq]
  omega

theorem toList_eq (window : r.Window pushed) : r.toList = pushed.rtake r.capacity := by
  rw [toList, funext window.get?_eq, ← window.length_rtake, filterMap_range_getElem?]

theorem latest?_eq (window : r.Window pushed) : r.latest? = pushed.getLast? := by
  have pos := window.capacity_pos
  have size := window.size_eq
  rw [latest?]
  split
  · rw [List.length_eq_zero_iff.mp (by omega : pushed.length = 0), List.getLast?_nil]
  · rw [window.get?_eq, ← window.length_rtake, ← List.getLast?_eq_getElem?, List.rtake,
      List.getLast?_drop, if_neg (by omega)]

end Window

end Chronicle.Loop.Ring
