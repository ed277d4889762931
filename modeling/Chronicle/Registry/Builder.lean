import Chronicle.Registry.Handler

/-!
# Registration

A builder collects handlers, at most one for each type.  Registering the
reference to a type also makes the type reachable through polymorphic
references, and registering an ordered container also guards the unordered one.
-/

namespace Chronicle

inductive RegistryError where
  | duplicate (type : String)
  | unregistered (type requiredBy : String)
  | missingOperation (type requiredBy : String) (operation : Operation)
  | nondeterministic (container requiredBy alternative : String)
  | duplicateName (name first second : String)
  deriving DecidableEq, Repr

/-- The short name of a cause, for reports that a machine reads. -/
def RegistryError.label : RegistryError → String
  | .duplicate _ => "Duplicate"
  | .unregistered _ _ => "Unregistered"
  | .missingOperation _ _ _ => "MissingOperation"
  | .nondeterministic _ _ _ => "Nondeterministic"
  | .duplicateName _ _ _ => "DuplicateName"

def RegistryError.message : RegistryError → String
  | .duplicate type => s!"type {type} is already registered"
  | .unregistered type requiredBy =>
      s!"type {type} (required by {requiredBy}) is not registered"
  | .missingOperation type requiredBy operation =>
      s!"type {type} (required by {requiredBy}) has no {operation.name} operation"
  | .nondeterministic container requiredBy alternative =>
      s!"{container} (required by {requiredBy}) has nondeterministic iteration order; " ++
        s!"use {alternative}"
  | .duplicateName name first second =>
      s!"stable name {name} is used by both {first} and {second}"

structure Builder where
  handlers : List Handler := []
  /-- The contents that polymorphic references may have. -/
  contents : List Ty := []
  roots : List Ty := []

/-- A registration keeps what it did before it failed. -/
abbrev Registering := EStateM RegistryError Builder

namespace Builder

def find? (b : Builder) (type : Ty) : Option Handler :=
  b.handlers.find? (·.type = type)

def contains (b : Builder) (type : Ty) : Bool := (b.find? type).isSome

def register (h : Handler) : Registering Unit := do
  if (← get).contains h.type then
    throw (.duplicate h.name)
  modify fun b => { b with handlers := b.handlers ++ [h] }

/-- Guard an unordered container; a second guard changes nothing. -/
def guardContainer (container alternative : Ty) : Registering Unit := do
  match (← get).find? container with
  | none => register (.guard container alternative)
  | some existing =>
      match existing.kind with
      | .guard _ => return
      | _ => throw (.nondeterministic container.name existing.name alternative.name)

def guardHashMap (key value : Ty) : Registering Unit :=
  guardContainer (.hashMap key value) (.map key value)

def guardHashSet (item : Ty) : Registering Unit :=
  guardContainer (.hashSet item) (.set item)

def registerSeq (item : Ty) : Registering Unit := register (.seq item)

def registerOption (item : Ty) : Registering Unit := register (.option item)

def registerMap (key value : Ty) (order : KeyOrder) : Registering Unit := do
  register (.map key value order)
  guardHashMap key value

def registerSet (item : Ty) (order : KeyOrder) : Registering Unit := do
  register (.set item order)
  guardHashSet item

def registerPacked (type : Ty) (blank : Plain.Datum) (format : Plain.PackedFormat) :
    Registering Unit :=
  register (.packed type blank format)

def registerShared (content : Ty) : Registering Unit := do
  register (.shared content)
  modify fun b => { b with contents := b.contents ++ [content] }

def registerAsset (content : Ty) : Registering Unit := register (.asset content)

/-- Declare a type that snapshots start from; once is enough. -/
def declareRoot (type : Ty) (b : Builder) : Builder :=
  if type ∈ b.roots then b else { b with roots := b.roots ++ [type] }

def basicHandlers : List Handler :=
  [.plain .bool (.bool false) .bool] ++
    ([.u8, .u16, .u32, .u64, .i8, .i16, .i32, .i64, .f32, .f64, .size].map Handler.scalar) ++
    [.plain .unit .unit .nothing,
      .plain .text (.text "") .text,
      .scalar .fixed64,
      .scalar .fixed32,
      .anyShared]

def withBasics : Builder := { handlers := basicHandlers }

end Builder

end Chronicle
