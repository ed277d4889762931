import Chronicle.Proofs.Walk.Comparing

/-!
# Containers as they are read

A set or a map is read item by item, and a key is compared with the one before it
only.  What was there when two keys were compared is left alone by the walks that
follow, so all keys of a container ascend when it has been read, and putting its
items into a container one by one, by the order of the keys, changes nothing.
-/

namespace Chronicle

open Success

theorem Heap.Extends.same {h h' : Heap} (grown : h.Extends h') :
    ∀ id < h.size, h'[id]? = h[id]? := by
  intro id inside
  have here := Array.getElem?_eq_getElem inside
  exact (grown id h[id] here).trans here.symm

/-- Entries are items of maps only. -/
def Layout.Bare : Layout → List Value → Prop
  | .set _ _, items => ∀ item ∈ items, item.orderingKey = item
  | _, _ => True

namespace KeyOrder

variable {order : KeyOrder} {s t : ReadState}

def Ascends (order : KeyOrder) (s : ReadState) (items : List Value) : Prop :=
  items.Pairwise fun v w =>
    order.compare s.heap s.filling v.orderingKey w.orderingKey = .found .lt

theorem Ascends.onward {items : List Value} (ascends : order.Ascends s items)
    (onward : s.Onward t) : order.Ascends t items :=
  ascends.imp fun less => onward.filling_eq ▸ order.keeps onward.heap_extends.same less

theorem Ascends.push {acc : Array Value} {item : Value} (ascends : order.Ascends s acc.toList)
    (above : ∀ last, acc.back? = some last →
      order.compare s.heap s.filling last.orderingKey item.orderingKey = .found .lt) :
    order.Ascends s (acc.push item).toList := by
  rw [Array.toList_push]
  refine List.pairwise_append.mpr ⟨ascends, List.pairwise_singleton _ _, ?_⟩
  intro v member w single
  obtain rfl := List.mem_singleton.mp single
  rcases List.eq_nil_or_concat acc.toList with none | ⟨front, last, split⟩
  · rw [none] at member
    contradiction
  · rw [List.concat_eq_append] at split
    have next := above last (by rw [← Array.getLast?_toList, split]; simp)
    rw [Ascends, split] at ascends
    rw [split] at member
    rcases List.mem_append.mp member with early | same
    · have before := (List.pairwise_append.mp ascends).2.2 v early last List.mem_cons_self
      exact order.trans before next
    · rwa [List.mem_singleton.mp same]

end KeyOrder

namespace Read

variable {order : KeyOrder} {container : String} {s t : ReadState} {v : Value}

theorem ascends_of_ascendingItems {next : Read Value} (advances : Advances id next) {count : Nat}
    {acc : Array Value}
    (sorted : (∀ item ∈ acc.toList, item.orderingKey = item) → order.Ascends s acc.toList)
    (run : ascendingItems container order next count acc s = .ok v t) :
    ∃ items, v = .list items ∧
      ((∀ item ∈ items, item.orderingKey = item) → order.Ascends t items) := by
  induction count generalizing s acc with
  | zero =>
      obtain ⟨rfl, rfl⟩ := pure_eq_ok.mp run
      exact ⟨_, rfl, sorted⟩
  | succ count ih =>
      obtain ⟨w, m, first, run⟩ := bind_eq_ok.mp run
      obtain ⟨_, m', judged, run⟩ := bind_eq_ok.mp run
      obtain ⟨above, rfl⟩ := ascend_eq_ok.mp (listSoFar_eq_ok.mp judged)
      have onward : s.Onward m := by
        simpa [listSoFar_eq_ok.mp first] using advances s
      refine ih (fun bare => ?_) run
      have before := (sorted fun item member => bare item (by simp [member])).onward onward
      refine before.push fun last found => ?_
      rw [bare w (by simp)]
      exact above last found

theorem ascends_of_ascendingEntries {nextKey nextValue : Read Value}
    (keys : Advances id nextKey) (values : Advances id nextValue) {count : Nat}
    {acc : Array Value} (sorted : order.Ascends s acc.toList)
    (run : ascendingEntries container order nextKey nextValue count acc s = .ok v t) :
    ∃ items, v = .list items ∧ order.Ascends t items := by
  induction count generalizing s acc with
  | zero =>
      obtain ⟨rfl, rfl⟩ := pure_eq_ok.mp run
      exact ⟨_, rfl, sorted⟩
  | succ count ih =>
      obtain ⟨k, m, first, run⟩ := bind_eq_ok.mp run
      obtain ⟨_, m', judged, run⟩ := bind_eq_ok.mp run
      obtain ⟨above, rfl⟩ := ascend_eq_ok.mp (listSoFar_eq_ok.mp judged)
      obtain ⟨w, m', second, run⟩ := bind_eq_ok.mp run
      have key : s.Onward m := by simpa [listSoFar_eq_ok.mp first] using keys s
      have value : m.Onward m' := by simpa [listSoFar_eq_ok.mp second] using values m
      have pushed : order.Ascends m (acc.push (.entry k w)).toList :=
        (sorted.onward key).push above
      exact ih (pushed.onward value) run

/-- All keys of a container that was read ascend, by the order of their type and among
the objects as they are then, and inserting its items one by one gives them back. -/
theorem sort?_of_valueAt {c : ReadContext} {n : Nat} {type : Ty} {layout : Layout} {old : Value}
    (found : c.registry.reader type = .ok layout) (ordered : layout.order? = some order)
    (run : valueAt c n type old s = .ok v t) :
    ∃ items, v = .list items ∧ (layout.Bare items →
      order.Ascends t items ∧ order.sort? t.heap t.filling items = some items) := by
  have fresh := (law_advances c).freshAt (advances_lowerAt c n) s.input.remaining
  have unlike : ∀ types, layout ≠ .record types := by
    rintro types rfl
    cases ordered
  have sorted (order : KeyOrder) (t : ReadState) : order.Ascends t (#[] : Array Value).toList :=
    .nil
  rw [valueAt_eq, value_eq, inPlace_eq_byLayout found unlike] at run
  suffices ascends : ∃ items, v = .list items ∧ (layout.Bare items → order.Ascends t items) by
    obtain ⟨items, same, ascends⟩ := ascends
    exact ⟨items, same, fun bare => ⟨ascends bare, KeyOrder.sort?_of_ascending (ascends bare)⟩⟩
  cases layout with
  | set item order' =>
      obtain rfl : order' = order := Option.some.inj ordered
      obtain ⟨count, m, _, run⟩ := bind_eq_ok.mp run
      exact ascends_of_ascendingItems (fresh item) (fun _ => sorted order' m) run
  | map key value order' =>
      obtain rfl : order' = order := Option.some.inj ordered
      obtain ⟨count, m, _, run⟩ := bind_eq_ok.mp run
      obtain ⟨items, same, ascends⟩ :=
        ascends_of_ascendingEntries (fresh key) (fresh value) (sorted order' m) run
      exact ⟨items, same, fun _ => ascends⟩
  | _ => cases ordered

end Read

end Chronicle
