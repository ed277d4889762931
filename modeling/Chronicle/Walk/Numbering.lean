import Chronicle.Value

/-!
# Numbering objects

The objects of a graph are numbered in the order in which they are first met
when values are gone through from left to right and an object's content is gone
through at its first occurrence.  Two graphs that differ only in where their
objects lie have the same numbered form.
-/

namespace Chronicle

structure Numbering where
  /-- The objects met so far, each at its number. -/
  order : Array Nat := #[]
  /-- Their contents, in which references are numbers. -/
  cells : Array Cell := #[]
  deriving BEq, Repr

abbrev Numbers := StateM Numbering

namespace Numbering

/-- Give the next number to an object whose content is not known yet. -/
def reserve (id : Nat) (cell : Cell) : Numbers Nat := do
  let s ← get
  set ({ order := s.order.push id, cells := s.cells.push ⟨cell.type, .nothing⟩ } : Numbering)
  return s.order.size

def settle (number : Nat) (content : Value) : Numbers Unit :=
  modify fun s => { s with cells := s.cells.modify number fun cell => { cell with content } }

/-- The number of an object; `walk` goes through its content if it is new. -/
def object (heap : Heap) (walk : Option (Value → Numbers Value)) (id : Nat) :
    Numbers Value := do
  match (← get).order.idxOf? id, heap[id]?, walk with
  | some number, _, _ => return .object number
  | none, some cell, some walk => do
      let number ← reserve id cell
      settle number (← walk cell.content)
      return .object number
  | none, _, _ => return .object id

mutual

def value (heap : Heap) (walk : Option (Value → Numbers Value)) : Value → Numbers Value
  | .object id => object heap walk id
  | .present v => return .present (← value heap walk v)
  | .list items => return .list (← values heap walk items)
  | .entry k v => do
      let k ← value heap walk k
      return .entry k (← value heap walk v)
  | v => return v

def values (heap : Heap) (walk : Option (Value → Numbers Value)) :
    List Value → Numbers (List Value)
  | [] => return []
  | v :: rest => do
      let v ← value heap walk v
      return v :: (← values heap walk rest)

end

/-- Go through a value; objects inside objects are followed through a number of
levels. -/
def valueAt (heap : Heap) : Nat → Value → Numbers Value
  | 0 => value heap none
  | levels + 1 => value heap (some (valueAt heap levels))

/-- Go through a value.  Each level meets a new object, so the objects of the
heap bound the levels. -/
def ofValue (heap : Heap) (v : Value) : Numbers Value :=
  valueAt heap heap.size v

end Numbering

end Chronicle
