import Chronicle.Value

/-!
# Heaps

Objects are only ever added to a heap, and filling one changes neither its type
nor any other object.
-/

namespace Chronicle

def Heap.Extends (h h' : Heap) : Prop :=
  ∀ (i : Nat) (cell : Cell), h[i]? = some cell → h'[i]? = some cell

namespace Heap

theorem Extends.refl (h : Heap) : h.Extends h := fun _ _ found => found

theorem Extends.trans {h h' h'' : Heap} (first : h.Extends h') (second : h'.Extends h'') :
    h.Extends h'' :=
  fun i cell found => second i cell (first i cell found)

theorem extends_allocate (h : Heap) (type : Ty) (content : Value) :
    h.Extends (h.allocate type content).2 := by
  intro i cell found
  have inside : i < h.size := (Array.getElem?_eq_some_iff.mp found).1
  rw [allocate, Array.getElem?_push_lt inside, ← found, Array.getElem?_eq_getElem inside]

theorem fill_self {h : Heap} {id : Nat} {cell : Cell} (found : h[id]? = some cell)
    (content : Value) :
    (h.fill id content)[id]? = some { cell with content } := by
  rw [fill, Array.getElem?_modify, if_pos rfl, found]
  rfl

theorem fill_of_ne (h : Heap) {i id : Nat} (other : i ≠ id) (content : Value) :
    (h.fill id content)[i]? = h[i]? := by
  rw [fill, Array.getElem?_modify, if_neg other.symm]

theorem type_fill (h : Heap) (i id : Nat) (content : Value) :
    (h.fill id content)[i]?.map Cell.type = h[i]?.map Cell.type := by
  by_cases same : i = id
  · subst same
    rw [fill, Array.getElem?_modify, if_pos rfl, Option.map_map]
    rfl
  · rw [fill_of_ne h same]

theorem exists_fill {h : Heap} {i : Nat} {cell : Cell} (found : h[i]? = some cell) (id : Nat)
    (content : Value) : ∃ cell', (h.fill id content)[i]? = some cell' ∧ cell'.type = cell.type := by
  have kept := h.type_fill i id content
  rw [found, Option.map_some, Option.map_eq_some_iff] at kept
  exact kept

/-- What was there before an object was added is there once that is filled. -/
theorem extends_fill {h heap h' : Heap} {cell : Cell} (grown : h.Extends heap)
    (later : Extends (heap.push cell) h') (content : Value) :
    h.Extends (h'.fill heap.size content) := by
  intro i other found
  have below : i < heap.size := (Array.getElem?_eq_some_iff.mp (grown _ _ found)).1
  rw [fill_of_ne _ (Nat.ne_of_lt below)]
  exact later _ _ (heap.extends_allocate cell.type cell.content _ _ (grown _ _ found))

end Heap

mutual

theorem Template.extends_make : ∀ (t : Template) (h : Heap), h.Extends (t.make h).2
  | .value _, h => .refl h
  | .object _ content, h => (Template.extends_make content h).trans (Heap.extends_allocate _ _ _)
  | .list items, h => extends_makeAll items h

theorem extends_makeAll : ∀ (ts : List Template) (h : Heap), h.Extends (makeAll ts h).2
  | [], h => .refl h
  | t :: rest, h => (Template.extends_make t h).trans (extends_makeAll rest _)

end

end Chronicle
