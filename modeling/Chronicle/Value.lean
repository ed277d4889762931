import Chronicle.Plain.Datum
import Chronicle.Ty

/-!
# Values

A value is a tree that may refer to shared objects by their place in a heap.
The same constructors serve several types: a list holds the items of a
sequence or a set, the entries of a map, or the fields of a record.
-/

namespace Chronicle

/-- A handle to content that lives outside: an entry of the host's library, or
content that no library manages. -/
inductive AssetHandle where
  | entry (index : Nat)
  | loose (content : Nat)
  deriving DecidableEq, Repr

inductive Value where
  | unit
  | bool (b : Bool)
  | int (n : Int)
  | text (s : String)
  | bytes (bs : Bytes)
  | plain (d : Plain.Datum)
  | absent
  | present (value : Value)
  | list (items : List Value)
  | entry (key value : Value)
  | object (id : Nat)
  /-- A polymorphic reference to no object. -/
  | nothing
  | asset (handle : AssetHandle)
  deriving BEq, Repr, Inhabited

namespace Value

def rank : Value → Nat
  | .unit => 0
  | .bool _ => 1
  | .int _ => 2
  | .text _ => 3
  | .bytes _ => 4
  | .plain _ => 5
  | .absent => 6
  | .present _ => 7
  | .list _ => 8
  | .entry _ _ => 9
  | .object _ => 10
  | .nothing => 11
  | .asset _ => 12

mutual

def references : Value → List Nat
  | .object id => [id]
  | .present v => references v
  | .list items => referencesAll items
  | .entry k v => references k ++ references v
  | _ => []

def referencesAll : List Value → List Nat
  | [] => []
  | v :: rest => references v ++ referencesAll rest

end

mutual

def rename (f : Nat → Nat) : Value → Value
  | .object id => .object (f id)
  | .present v => .present (rename f v)
  | .list items => .list (renameAll f items)
  | .entry k v => .entry (rename f k) (rename f v)
  | v => v

def renameAll (f : Nat → Nat) : List Value → List Value
  | [] => []
  | v :: rest => rename f v :: renameAll f rest

end

/-- The part of a container's item that orders it: the key of an entry, or the
item itself. -/
def orderingKey : Value → Value
  | .entry key _ => key
  | item => item

end Value

/-- A shared object: the type and value of its content. -/
structure Cell where
  type : Ty
  content : Value
  deriving BEq, Repr

abbrev Heap := Array Cell

namespace Heap

def allocate (h : Heap) (type : Ty) (content : Value) : Nat × Heap :=
  (h.size, h.push ⟨type, content⟩)

/-- The objects of one heap after those of another, and where references into
it go. -/
def append (h other : Heap) : Heap :=
  h ++ other.map fun cell => { cell with content := cell.content.rename (h.size + ·) }

def fill (h : Heap) (id : Nat) (content : Value) : Heap :=
  h.modify id fun cell => { cell with content }

end Heap

/-- The value that an initializer makes: plain values stand for themselves and
shared objects are made anew each time. -/
inductive Template where
  | value (v : Value)
  | object (type : Ty) (content : Template)
  | list (items : List Template)
  deriving BEq, Repr, Inhabited

mutual

def Template.make : Template → Heap → Value × Heap
  | .value v, h => (v, h)
  | .object type content, h =>
      let (v, h) := content.make h
      let (id, h) := h.allocate type v
      (.object id, h)
  | .list items, h =>
      let (vs, h) := makeAll items h
      (.list vs, h)

def makeAll : List Template → Heap → List Value × Heap
  | [], h => ([], h)
  | t :: rest, h =>
      let (v, h) := t.make h
      let (vs, h) := makeAll rest h
      (v :: vs, h)

end

end Chronicle
