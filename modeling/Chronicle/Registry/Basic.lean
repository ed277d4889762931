import Chronicle.Fingerprint
import Chronicle.Registry.Validation

/-!
# Registries

A registry is a validated set of handlers.  Polymorphic references name their
content by a tag, the place of the content in the order of stable names, and
the fingerprint of the definitions is taken over a sorted list of records, so
neither depends on the order of registration.
-/

namespace Chronicle

/-- The name of a type's handler, or of the type if it has none. -/
def Builder.stableName (b : Builder) (type : Ty) : String :=
  match b.find? type with
  | some h => h.name
  | none => type.name

/-- What the fingerprint says about a handler. -/
structure HandlerRecord where
  name : String
  kind : Nat
  operations : Nat
  dependencies : List (String × Bool)
  deriving DecidableEq, Repr

namespace HandlerRecord

def kindCode : HandlerKind → Nat
  | .value => 0
  | .shared => 1
  | .polymorphic => 2
  | .asset => 3
  | .guard _ => 4

def operationBits (h : Handler) : Nat :=
  h.initializer.isSome.toNat + 2 * h.writer.isSome.toNat + 4 * h.reader.isSome.toNat

def dependencyCmp (a b : String × Bool) : Ordering :=
  (compare a.1 b.1).then (compare a.2 b.2)

def dependenciesCmp : List (String × Bool) → List (String × Bool) → Ordering
  | [], [] => .eq
  | [], _ :: _ => .lt
  | _ :: _, [] => .gt
  | a :: as, b :: bs => (dependencyCmp a b).then (dependenciesCmp as bs)

def cmp (a b : HandlerRecord) : Ordering :=
  (compare a.name b.name).then <|
    (compare a.kind b.kind).then <|
      (compare a.operations b.operations).then
        (dependenciesCmp a.dependencies b.dependencies)

/-- The record of a handler.  A reference is recorded under the stable name of
its content. -/
def ofHandler (b : Builder) (h : Handler) : HandlerRecord where
  name :=
    match h.kind, h.dependencies with
    | .shared, content :: _ => b.stableName content.type
    | _, _ => h.name
  kind := kindCode h.kind
  operations := operationBits h
  dependencies :=
    (h.dependencies.map fun d => (b.stableName d.type, d.needsInitializer)).mergeSort
      fun x y => (dependencyCmp x y).isLE

def fedDependency (d : String × Bool) : Bytes :=
  Digest.text d.1 ++ [if d.2 then 1 else 0]

def fed (r : HandlerRecord) : Bytes :=
  Digest.text r.name ++ [UInt8.ofNat r.kind, UInt8.ofNat r.operations] ++
    Digest.word r.dependencies.length ++ r.dependencies.flatMap fedDependency

end HandlerRecord

namespace Builder

def records (b : Builder) : List HandlerRecord :=
  (b.handlers.map (HandlerRecord.ofHandler b)).mergeSort fun x y => (x.cmp y).isLE

/-- Everything that is fed to the fingerprint of the definitions. -/
def fed (b : Builder) : Bytes :=
  Digest.word b.records.length ++ b.records.flatMap HandlerRecord.fed

/-- The contents of polymorphic references in the order of their tags. -/
def tagOrder (b : Builder) : List Ty :=
  b.contents.mergeSort fun s t =>
    ((compare (b.stableName s) (b.stableName t)).then (compare s.name t.name)).isLE

end Builder

structure Registry where
  handlers : List Handler
  /-- The contents of polymorphic references; a tag is a place in this list. -/
  tags : List Ty
  roots : List Ty
  fingerprint : Fingerprint

def Builder.build (b : Builder) : Except RegistryError Registry := do
  Validation.validate b
  return {
    handlers := b.handlers
    tags := b.tagOrder
    roots := b.roots
    fingerprint := .ofFed b.fed }

namespace Registry

def find? (r : Registry) (type : Ty) : Option Handler :=
  r.handlers.find? (·.type = type)

def contains (r : Registry) (type : Ty) : Bool := (r.find? type).isSome

def size (r : Registry) : Nat := r.handlers.length

def typeNames (r : Registry) : List String :=
  (r.handlers.map (·.name)).mergeSort fun s t => (compare s t).isLE

def tag? (r : Registry) (content : Ty) : Option Nat :=
  r.tags.idxOf? content

def ofTag? (r : Registry) (tag : Nat) : Option Ty := r.tags[tag]?

def resolve (r : Registry) (type : Ty) : Except WalkError Handler :=
  match r.find? type with
  | some h => .ok h
  | none => .error (.unregistered type.name)

def writer (r : Registry) (type : Ty) : Except WalkError Layout := do
  let h ← r.resolve type
  match h.writer with
  | some layout => return layout
  | none => throw (.missingOperation h.name .write)

def reader (r : Registry) (type : Ty) : Except WalkError Layout := do
  let h ← r.resolve type
  match h.reader with
  | some layout => return layout
  | none => throw (.missingOperation h.name .read)

def initializer (r : Registry) (type : Ty) : Except WalkError Initializer := do
  let h ← r.resolve type
  match h.initializer with
  | some i => return i
  | none => throw (.missingOperation h.name .make)

end Registry

abbrev Making := EStateM WalkError Heap

def liftResult {σ α : Type} (result : Except WalkError α) : EStateM WalkError σ α :=
  match result with
  | .ok a => return a
  | .error e => throw e

def Registry.makeBlank (r : Registry) (type : Ty) : Making Value := do
  match ← liftResult (r.initializer type) with
  | .template t => modifyGet t.make
  | .refused container alternative =>
      throw (.nondeterministic container alternative .make)
  | .placeholder =>
      match type with
      | .shared content => do
          let v ← r.makeBlank content
          return .object (← modifyGet fun h => h.allocate content v)
      | _ => throw (.typeMismatch type.name)

end Chronicle
