import Chronicle.Loop.Record

/-!
# The ring of recent records

A ring has a fixed number of slots, at least one, and overwrites its oldest
record when it is full.  Its view is the list of the records it holds, oldest
first.
-/

namespace Chronicle.Loop

structure Ring where
  slots : Array (Option Record)
  /-- The slot the next record goes to. -/
  head : Nat := 0
  size : Nat := 0
  /-- Records ever pushed, across clearings. -/
  totalPushed : Nat := 0
  deriving DecidableEq, Repr

namespace Ring

/-- An empty ring; a capacity of zero counts as one. -/
def ofCapacity (capacity : Nat) : Ring :=
  { slots := Array.replicate (max capacity 1) none }

def capacity (r : Ring) : Nat := r.slots.size

def isEmpty (r : Ring) : Bool := r.size = 0

def push (r : Ring) (rec : Record) : Ring where
  slots := r.slots.setIfInBounds r.head (some rec)
  head := (r.head + 1) % r.capacity
  size := if r.size < r.capacity then r.size + 1 else r.size
  totalPushed := r.totalPushed + 1

def start (r : Ring) : Nat :=
  if r.size < r.capacity then 0 else r.head

def get? (r : Ring) (index : Nat) : Option Record :=
  if index < r.size then
    (r.slots[(r.start + index) % r.capacity]?).join
  else none

def latest? (r : Ring) : Option Record :=
  if r.size = 0 then none else r.get? (r.size - 1)

def toList (r : Ring) : List Record :=
  (List.range r.size).filterMap r.get?

def clear (r : Ring) : Ring :=
  { r with slots := Array.replicate r.capacity none, head := 0, size := 0 }

@[simp] theorem capacity_ofCapacity (n : Nat) : (ofCapacity n).capacity = max n 1 := by
  simp [ofCapacity, capacity]

@[simp] theorem capacity_push (r : Ring) (rec : Record) :
    (r.push rec).capacity = r.capacity := by
  simp [push, capacity]

@[simp] theorem totalPushed_push (r : Ring) (rec : Record) :
    (r.push rec).totalPushed = r.totalPushed + 1 := rfl

@[simp] theorem capacity_clear (r : Ring) : r.clear.capacity = r.capacity := by
  simp [clear, capacity]

end Ring

end Chronicle.Loop
