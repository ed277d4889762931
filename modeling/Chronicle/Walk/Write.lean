import Chronicle.Assets
import Chronicle.Codec.Writer
import Chronicle.Plain.OrderKey
import Chronicle.Registry.Basic

/-!
# Writing a graph

A walk writes a value by the layout of its type.  The first time it meets a
shared object it writes a marker, a number and the content; each later time it
writes another marker and the number alone.  Numbers follow the order of first
visits, so neither the places of objects in the heap nor their addresses can
show in the result.

Contents of shared objects are entered one level deeper.  The levels that may
still be opened bound the recursion from object to object, and within one
level the recursion follows the value.
-/

namespace Chronicle

/-- The marker in front of an object's first occurrence. -/
def newMarker : UInt8 := 1

def backMarker : UInt8 := 2

structure WriteContext where
  registry : Registry
  heap : Heap
  /-- Objects whose content someone else is changing. -/
  borrowed : List Nat := []
  assets : Option AssetResolver := none
  maxDepth : Nat

structure WriteState where
  out : ByteWriter
  /-- The objects met so far; the number of an object is its place here. -/
  visited : Array Nat := #[]
  /-- The running number of the host. -/
  counter : Nat := 0
  deriving DecidableEq, Repr

abbrev Write := EStateM WalkError WriteState

namespace Write

def emit (act : Writing Unit) : Write Unit := fun s =>
  match act s.out with
  | .ok _ out => .ok () { s with out }
  | .error e out => .error e { s with out }

def marker (octet : UInt8) (number : Nat) : Write Unit :=
  emit do
    Writing.octet octet
    Writing.scalar .u32 number

/-- Write the reference to an object; the answer tells whether its content has
to follow. -/
def reference (id : Nat) : Write Bool := do
  let s ← get
  match s.visited.idxOf? id with
  | some number => do
      marker backMarker number
      return false
  | none => do
      let number := s.visited.size
      if leBound 4 ≤ number then throw (.outOfRange number "reference id")
      set { s with visited := s.visited.push id }
      marker newMarker number
      return true

abbrev Lower := Option (Ty → Value → Write Unit)

def descend (c : WriteContext) (lower : Lower) (act : (Ty → Value → Write Unit) → Write Unit) :
    Write Unit :=
  match lower with
  | none => throw (.depthExceeded c.maxDepth)
  | some walk => act walk

def eachField (walk : Ty → Value → Write Unit) : List Ty → List Value → Write Unit
  | [], [] => return
  | type :: types, v :: rest => do
      walk type v
      eachField walk types rest
  | _, _ => throw (.typeMismatch "record")

def unborrowed (c : WriteContext) (id : Nat) (content : Ty) : Write Unit := do
  if id ∈ c.borrowed then throw (.alreadyBorrowed content.name)

/-- A reference of a known type: the content follows unless it was written
before. -/
def shared (c : WriteContext) (lower : Lower) (content : Ty) (id : Nat) : Write Unit := do
  match c.heap[id]? with
  | none => throw (.typeMismatch content.name)
  | some cell =>
      if cell.type = content then
        if ← reference id then
          unborrowed c id content
          descend c lower fun walk => walk content cell.content
      else throw (.typeMismatch content.name)

/-- A polymorphic reference: the tag of the content's type stands between the
marker and the content. -/
def anyShared (c : WriteContext) (lower : Lower) (id : Nat) : Write Unit := do
  match c.heap[id]? with
  | none => throw (.typeMismatch Ty.anyShared.name)
  | some cell =>
      match c.registry.tag? cell.type with
      | none => throw (.unregisteredShared cell.type.name)
      | some tag =>
          if ← reference id then
            emit (Writing.scalar .u32 tag)
            descend c lower fun walk => do
              unborrowed c id cell.type
              walk cell.type cell.content

def asset (c : WriteContext) (content : Ty) (handle : AssetHandle) : Write Unit := do
  match c.assets with
  | none => throw (.noAssetResolver content.name)
  | some resolver =>
      match resolver.pathOf handle with
      | none => throw (.unnamedAsset content.name)
      | some path => emit (Writing.text path)

/-- Plain data: its maps have to be in order, and the blob has its length in
front. -/
def packed (type : Ty) (format : Plain.PackedFormat) (d : Plain.Datum) : Write Unit := do
  match Plain.checkOrder d with
  | .error e => throw (e.toWalkError type.name)
  | .ok _ =>
      match format.encode d with
      | .error reason => throw (.packed reason)
      | .ok bs => emit (Writing.sized bs)

def counter : Write Unit := do
  let s ← get
  set { s with counter := s.counter + 1 }
  emit (Writing.scalar .u32 s.counter)

/-- Write a value whose parts, if it has any, lie one level deeper. -/
def whole (c : WriteContext) (lower : Lower) (type : Ty) : Layout → Value → Write Unit
  | .nothing, _ => return
  | .bool, .bool b => emit (Writing.bool b)
  | .scalar s, .int n => emit (Writing.scalar s n)
  | .text, .text s => emit (Writing.text s)
  | .option _, .absent => emit (Writing.octet 0)
  | .nested fields, .list vs => descend c lower fun walk => eachField walk fields vs
  | .shared content, .object id => shared c lower content id
  | .anyShared, .object id => anyShared c lower id
  | .anyShared, .nothing => throw (.unregisteredShared Ty.unit.name)
  | .asset content, .asset handle => asset c content handle
  | .packed format, .plain d => packed type format d
  | .octets, .bytes bs => emit (Writing.sized bs)
  | .counter, _ => counter
  | .lowOctet, .int n => emit (Writing.scalar .u32 n)
  | .refused container alternative, _ =>
      throw (.nondeterministic container alternative .write)
  | _, _ => throw (.typeMismatch type.name)

mutual

def value (c : WriteContext) (lower : Lower) (type : Ty) : Value → Write Unit
  | .list vs => do
      match ← liftResult (c.registry.writer type) with
      | .seq item => do
          emit (Writing.length vs.length)
          eachItem c lower item vs
      | .set item _ => do
          emit (Writing.length vs.length)
          eachItem c lower item vs
      | .map keyType valueType _ => do
          emit (Writing.length vs.length)
          eachEntry c lower keyType valueType vs
      | .record fields => fieldsInPlace c lower fields vs
      | layout => whole c lower type layout (.list vs)
  | .present v => do
      match ← liftResult (c.registry.writer type) with
      | .option item => do
          emit (Writing.octet 1)
          value c lower item v
      | layout => whole c lower type layout (.present v)
  | v => do whole c lower type (← liftResult (c.registry.writer type)) v

def eachItem (c : WriteContext) (lower : Lower) (type : Ty) : List Value → Write Unit
  | [] => return
  | v :: rest => do
      value c lower type v
      eachItem c lower type rest

def eachEntry (c : WriteContext) (lower : Lower) (keyType valueType : Ty) :
    List Value → Write Unit
  | [] => return
  | .entry k v :: rest => do
      value c lower keyType k
      value c lower valueType v
      eachEntry c lower keyType valueType rest
  | _ :: _ => throw (.typeMismatch "entry")

def fieldsInPlace (c : WriteContext) (lower : Lower) (types : List Ty) :
    List Value → Write Unit
  | [] =>
      match types with
      | [] => return
      | _ :: _ => throw (.typeMismatch "record")
  | v :: rest =>
      match types with
      | [] => throw (.typeMismatch "record")
      | type :: types => do
          value c lower type v
          fieldsInPlace c lower types rest

end

/-- A value that is no list and holds none is written whole. -/
theorem value_eq_whole (c : WriteContext) (lower : Lower) (type : Ty) {v : Value}
    (apart : ∀ vs, v ≠ .list vs) (bare : ∀ inner, v ≠ .present inner) :
    value c lower type v =
      (do whole c lower type (← liftResult (c.registry.writer type)) v) := by
  rw [value]
  · exact apart
  · exact bare

/-- Write a value with a number of levels left to open. -/
def valueAt (c : WriteContext) : Nat → Ty → Value → Write Unit
  | 0, type, v => value c none type v
  | levels + 1, type, v => value c (some (valueAt c levels)) type v

def walk (c : WriteContext) (type : Ty) (v : Value) : Write Unit :=
  valueAt c c.maxDepth type v

end Write

end Chronicle
