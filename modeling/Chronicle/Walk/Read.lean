import Chronicle.Assets
import Chronicle.Codec.Reader
import Chronicle.Registry.Basic
import Chronicle.Walk.Write

/-!
# Reading a graph

A walk fills a value in place by the layout of its type.  A new object is bound
to its number before its content is read, so a reference inside the content can
lead back to it.  A walk that fails reports the value as far as it was filled,
and objects bound by then keep what was read of them.

Within one level the recursion follows the value that is filled.  A value made
anew is unrelated to the one around it, but it is made only after an octet was
taken, so the octets left bound how deep such values lie in each other.
-/

namespace Chronicle

structure ReadContext where
  registry : Registry
  assets : Option AssetResolver := none
  maxDepth : Nat

structure ReadState where
  input : ByteReader
  heap : Heap := #[]
  /-- The objects bound so far; the number of an object is its place here. -/
  bound : Array Nat := #[]
  /-- The objects whose content is being filled, the innermost first. -/
  filling : List Nat := []
  deriving BEq, Repr

abbrev Read := EStateM WalkError ReadState

/-- Work on a value in place: a failure comes with what became of the value. -/
abbrev Filling (target : Type) := EStateM (WalkError × target) ReadState

namespace Read

def take {α : Type} (act : Reading α) : Read α := fun s =>
  match act s.input with
  | .ok a input => .ok a { s with input }
  | .error e input => .error e { s with input }

def make {α : Type} (act : Making α) : Read α := fun s =>
  match act s.heap with
  | .ok a heap => .ok a { s with heap }
  | .error e heap => .error e { s with heap }

def keeping {α β : Type} (old : β) (act : Read α) : Filling β α :=
  fun s =>
    match act s with
    | .ok a s => .ok a s
    | .error e s => .error (e, old) s

def discarding {α : Type} (act : Filling α α) : Read α := fun s =>
  match act s with
  | .ok a s => .ok a s
  | .error (e, _) s => .error e s

def nextNumber (s : ReadState) : Nat := s.bound.size % leBound 4

inductive Marker where
  | fresh (number : Nat)
  | existing (number : Nat) (id : Nat)
  deriving DecidableEq, Repr

/-- Read a marker and find the object that a number stands for. -/
def marker : Read Marker := do
  let octet ← take Reading.octet
  if octet = newMarker then
    let found ← take Reading.word
    let expected := nextNumber (← get)
    if found = expected then return .fresh found
    else throw (.referenceOutOfSequence expected found)
  else if octet = backMarker then
    let number ← take Reading.word
    let s ← get
    match s.bound[number]? with
    | some id => return .existing number id
    | none => throw (.backReferenceOutOfRange number s.bound.size)
  else
    throw (.invalidTag "reference marker" octet)

def bind (number id : Nat) : Read Unit := do
  let s ← get
  let expected := nextNumber s
  if number ≠ expected then throw (.referenceOutOfSequence expected number)
  set { s with bound := s.bound.push id }

abbrev Walker := Ty → Value → Filling Value Value

abbrev Lower := Option Walker

def descend {α : Type} (c : ReadContext) (lower : Lower) (old : α)
    (act : Walker → Filling α α) : Filling α α :=
  match lower with
  | none => throw (.depthExceeded c.maxDepth, old)
  | some walk => act walk

def create (c : ReadContext) (walk : Walker) (type : Ty) : Read Value := do
  let blank ← make (c.registry.makeBlank type)
  discarding (walk type blank)

/-- Walk into the content of an object, which keeps what a failed walk got to. -/
def fillObject (c : ReadContext) (lower : Lower) (id : Nat) : Read Unit := fun s =>
  match s.heap[id]? with
  | none => .error (.typeMismatch Ty.anyShared.name) s
  | some cell =>
      match descend c lower cell.content (fun walk => walk cell.type cell.content)
          { s with filling := id :: s.filling } with
      | .ok v t => .ok () { t with heap := t.heap.fill id v, filling := s.filling }
      | .error (e, v) t => .error e { t with heap := t.heap.fill id v, filling := s.filling }

/-- A new object of a type: made, bound to its number, and then filled. -/
def object (c : ReadContext) (lower : Lower) (number : Nat) (content : Ty) : Read Value := do
  let blank ← make (c.registry.makeBlank content)
  let id ← make (modifyGet fun h => h.allocate content blank)
  bind number id
  fillObject c lower id
  return .object id

def shared (c : ReadContext) (lower : Lower) (content : Ty) : Read Value := do
  match ← marker with
  | .existing number id =>
      match (← get).heap[id]? with
      | some cell =>
          if cell.type = content then return .object id
          else throw (.referenceTypeMismatch number content.name)
      | none => throw (.referenceTypeMismatch number content.name)
  | .fresh number => object c lower number content

/-- A polymorphic reference: a new object has the tag of its type in front. -/
def anyShared (c : ReadContext) (lower : Lower) : Read Value := do
  match ← marker with
  | .existing _ id => return .object id
  | .fresh number => do
      let tag ← take Reading.word
      match c.registry.ofTag? tag with
      | none => throw (.unknownTypeTag tag)
      | some content => object c lower number content

/-- The handle that a path leads to, if its content has the right type. -/
def asset (c : ReadContext) (content : Ty) : Read Value := do
  let path ← take Reading.text
  match c.assets with
  | none => throw (.noAssetResolver content.name)
  | some resolver =>
      match resolver.load content path with
      | none => throw (.assetNotFound path content.name)
      | some loaded =>
          if loaded.type = content then return .asset loaded.handle
          else throw (.assetNotFound path content.name)

def packed (format : Plain.PackedFormat) : Read Value := do
  match format.decode (← take Reading.sized) with
  | .ok d => return .plain d
  | .error reason => throw (.packed reason)

/-- A failure that leaves a list with the items it got. -/
def listSoFar {α : Type} (acc : Array Value) (act : Read α) :
    Filling Value α := fun s =>
  match act s with
  | .ok a s => .ok a s
  | .error e s => .error (e, .list acc.toList) s

def items (next : Read Value) : Nat → Array Value → Filling Value Value
  | 0, acc => return .list acc.toList
  | count + 1, acc => do
      let v ← listSoFar acc next
      items next count (acc.push v)

/-- What a comparison of neighbouring keys means for their container. -/
def verdict (container : String) : Comparison → Except WalkError Unit
  | .found .lt => .ok ()
  | .found _ => .error (.unorderedKeys container)
  | .borrowed => .error (.borrowedKey container)
  | .endless => .error (.endlessKey container)

def ascend (container : String) (order : KeyOrder) (acc : Array Value) (key : Value) :
    Read Unit := do
  match acc.back? with
  | none => return
  | some last => do
      let s ← get
      liftResult (verdict container
        (order.compare s.heap s.filling last.orderingKey key))

def ascendingItems (container : String) (order : KeyOrder) (next : Read Value) :
    Nat → Array Value → Filling Value Value
  | 0, acc => return .list acc.toList
  | count + 1, acc => do
      let v ← listSoFar acc next
      listSoFar acc (ascend container order acc v)
      ascendingItems container order next count (acc.push v)

/-- `count` more entries in ascending order; a key is judged before its value is
read. -/
def ascendingEntries (container : String) (order : KeyOrder) (nextKey nextValue : Read Value) :
    Nat → Array Value → Filling Value Value
  | 0, acc => return .list acc.toList
  | count + 1, acc => do
      let k ← listSoFar acc nextKey
      listSoFar acc (ascend container order acc k)
      let v ← listSoFar acc nextValue
      ascendingEntries container order nextKey nextValue count (acc.push (.entry k v))

/-- A failure inside a list of fields as one of the record. -/
def asRecord (act : Filling (List Value) (List Value)) : Filling Value Value := fun s =>
  match act s with
  | .ok vs s => .ok (.list vs) s
  | .error (e, vs) s => .error (e, .list vs) s

def eachField (walk : Walker) : List Ty → List Value → Filling (List Value) (List Value)
  | [], [] => return []
  | type :: types, v :: rest => fun s =>
      match walk type v s with
      | .error (e, v) s => .error (e, v :: rest) s
      | .ok v s =>
          match eachField walk types rest s with
          | .error (e, vs) s => .error (e, v :: vs) s
          | .ok vs s => .ok (v :: vs) s
  | _, vs => throw (.typeMismatch "record", vs)

/-- Replace a value by a layout; `fresh` makes and fills values on the same
level. -/
def byLayout (c : ReadContext) (lower : Lower) (fresh : Ty → Read Value) (type : Ty)
    (old : Value) : Layout → Filling Value Value
  | .nothing => return old
  | .bool => return .bool (← keeping old (take Reading.bool))
  | .scalar s => return .int (← keeping old (take (Reading.scalar s)))
  | .text => return .text (← keeping old (take Reading.text))
  | .seq item => do
      let count ← keeping old (take Reading.length)
      items (fresh item) count #[]
  | .set item order => do
      let count ← keeping old (take Reading.length)
      ascendingItems type.name order (fresh item) count #[]
  | .map key value order => do
      let count ← keeping old (take Reading.length)
      ascendingEntries type.name order (fresh key) (fresh value) count #[]
  | .option item => keeping old do
      let octet ← take Reading.octet
      if octet = 0 then return .absent
      else if octet = 1 then return .present (← fresh item)
      else throw (.invalidTag "option" octet)
  | .nested types => descend c lower old fun walk =>
      match old with
      | .list vs => asRecord (eachField walk types vs)
      | _ => throw (.typeMismatch "record", old)
  | .shared content => keeping old (shared c lower content)
  | .anyShared => keeping old (anyShared c lower)
  | .asset content => keeping old (asset c content)
  | .packed format => keeping old (packed format)
  | .octets => return .bytes (← keeping old (take Reading.sized))
  | .counter => do
      let _ ← keeping old (take Reading.word)
      return old
  | .lowOctet => return .int ((← keeping old (take Reading.word)) % 256 : Nat)
  | .refused container alternative =>
      throw (.nondeterministic container alternative .read, old)
  -- A record is filled field by field; anything else in its place is no record.
  | .record _ => throw (.typeMismatch "record", old)

mutual

def inPlace (c : ReadContext) (lower : Lower) (fresh : Ty → Read Value) (type : Ty) :
    Value → Filling Value Value
  | .list vs => do
      match ← keeping (.list vs) (liftResult (c.registry.reader type)) with
      | .record types => asRecord (fieldsInPlace c lower fresh types vs)
      | layout => byLayout c lower fresh type (.list vs) layout
  | old => do
      byLayout c lower fresh type old (← keeping old (liftResult (c.registry.reader type)))

def fieldsInPlace (c : ReadContext) (lower : Lower) (fresh : Ty → Read Value)
    (types : List Ty) : List Value → Filling (List Value) (List Value)
  | [] =>
      match types with
      | [] => return []
      | _ :: _ => throw (.typeMismatch "record", [])
  | v :: rest =>
      match types with
      | [] => throw (.typeMismatch "record", v :: rest)
      | type :: types => fun s =>
          match inPlace c lower fresh type v s with
          | .error (e, v) s => .error (e, v :: rest) s
          | .ok v s =>
              match fieldsInPlace c lower fresh types rest s with
              | .error (e, vs) s => .error (e, v :: vs) s
              | .ok vs s => .ok (v :: vs) s

end

/-- Walk into a value on one level when at most `octets` are left. -/
def value (c : ReadContext) (lower : Lower) : Nat → Walker
  | 0, type, old => inPlace c lower (fun _ => throw (.unexpectedEnd 1 0)) type old
  | octets + 1, type, old => inPlace c lower (create c (value c lower octets)) type old

/-- Walk into a value with a number of levels left to open. -/
def valueAt (c : ReadContext) : Nat → Walker
  | 0, type, old => fun s => value c none s.input.remaining type old s
  | levels + 1, type, old => fun s =>
      value c (some (valueAt c levels)) s.input.remaining type old s

def walk (c : ReadContext) : Walker := valueAt c c.maxDepth

def fresh (c : ReadContext) (type : Ty) : Read Value :=
  create c (walk c) type

end Read

end Chronicle
