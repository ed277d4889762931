import Chronicle.FixedPoint
import Chronicle.StructuralOrder
import Chronicle.Walk.Snapshot

/-!
# A sample simulation

A small world with every shape a walk has to handle: a definition that all
actors share, actors that target each other, ordered containers, polymorphic
components and a block of plain settings.
-/

namespace Chronicle.Sample

def path (name : String) : String := "rewind_core::test_utils::" ++ name

def definition : Ty := .named (path "Definition")

def health : Ty := .named (path "Health")

def motor : Ty := .named (path "Motor")

def settings : Ty := .named (path "Settings")

def actor : Ty := .named (path "Actor")

def world : Ty := .named (path "World")

abbrev Fields := List (String × Ty)

def definitionFields : Fields :=
  [("name", .text), ("max_health", .scalar .u32), ("speed", .scalar .fixed64)]

def healthFields : Fields :=
  [("current", .scalar .u32), ("regen", .scalar .fixed32)]

def motorFields : Fields :=
  [("velocity", .scalar .fixed64), ("heading", .scalar .i16)]

def actorFields : Fields :=
  [("name", .text), ("x", .scalar .fixed64), ("y", .scalar .fixed64),
    ("definition", .shared definition), ("target", .option (.shared actor)),
    ("tags", .set .text), ("inventory", .map .text (.scalar .u32)),
    ("components", .seq .anyShared)]

def worldFields : Fields :=
  [("tick", .scalar .u64), ("settings", settings), ("definition", .shared definition),
    ("actors", .seq (.shared actor))]

def records : List (String × Fields) :=
  [("Definition", definitionFields), ("Health", healthFields), ("Motor", motorFields),
    ("Actor", actorFields), ("World", worldFields)]

/-! ## Blank values -/

def blankSettings : Plain.Datum :=
  .sequence .record [.unsigned .w64 0, .unsigned .w8 0, .text ""]

def blankDefinition : Template :=
  .value (.list [.text "", .int 0, .int 0])

def blankPair : Template := .value (.list [.int 0, .int 0])

def blankActor : Template :=
  .list [.value (.text ""), .value (.int 0), .value (.int 0),
    .object definition blankDefinition, .value .absent, .value (.list []),
    .value (.list []), .value (.list [])]

def blankWorld : Template :=
  .list [.value (.int 0), .value (.plain blankSettings),
    .object definition blankDefinition, .value (.list [])]

/-! ## Registration -/

def settingsFormat : Plain.PackedFormat :=
  Plain.Packed.record [.number, .octet, .text]

def recordHandler (type : Ty) (name : String) (fields : Fields) (blank : Template)
    (dependencies : List Ty) : Handler where
  type
  name := "sample::" ++ name
  dependencies := dependencies.map Handler.inPlace
  initializer := some (.template blank)
  writer := some (.record (fields.map (·.2)))
  reader := some (.record (fields.map (·.2)))

open Builder in
/-- Everything the sample world needs, in the order of registration. -/
def registrations : Registering Unit := do
  registerPacked settings blankSettings settingsFormat
  register <| recordHandler definition "Definition" definitionFields blankDefinition
    [.text, .scalar .u32, .scalar .fixed64]
  registerShared definition
  register <| recordHandler health "Health" healthFields blankPair
    [.scalar .u32, .scalar .fixed32]
  registerShared health
  register <| recordHandler motor "Motor" motorFields blankPair
    [.scalar .fixed64, .scalar .i16]
  registerShared motor
  register <| recordHandler actor "Actor" actorFields blankActor
    [.text, .scalar .fixed64, .shared definition, .option (.shared actor), .set .text,
      .map .text (.scalar .u32), .seq .anyShared]
  registerShared actor
  registerOption (.shared actor)
  registerSet .text .structural
  registerMap .text (.scalar .u32) .structural
  registerSeq .anyShared
  register <| recordHandler world "World" worldFields blankWorld
    [.scalar .u64, settings, .shared definition, .seq (.shared actor)]
  registerSeq (.shared actor)
  modify (declareRoot world)

/-- The builder with the basic types and the sample's own; the registrations do
not clash. -/
def builder : Builder :=
  match registrations Builder.withBasics with
  | .ok _ b => b
  | .error _ b => b

/-! ## A world -/

def quarters (p : FixedPoint) (n : Int) : Value :=
  .int (n * (1 <<< (p.fraction - 2) : Nat))

/-- The objects of the sample world: the definition, three actors, a health
component and a motor. -/
def worldHeap : Heap :=
  let person (name : String) (x y : Int) (target : Value) (tags inventory components : List Value) :
      Cell :=
    ⟨actor, .list [.text name, quarters .wide x, quarters .wide y, .object 0, target,
      .list tags, .list inventory, .list components]⟩
  #[
    ⟨definition, .list [.text "grunt", .int 100, quarters .wide 6]⟩,
    person "alice" 0 0 (.present (.object 2)) [.text "armed", .text "leader"]
      [.entry (.text "ammo") (.int 30), .entry (.text "medkit") (.int 1)] [.object 4],
    person "bob" 13 (-4) (.present (.object 1)) [.text "scout"] [] [.object 5],
    person "carol" (-34) 8 .absent [] [] [.object 4],
    ⟨health, .list [.int 80, quarters .compact 1]⟩,
    ⟨motor, .list [quarters .wide 8, .int (-90)]⟩
  ]

/-- Two actors that target each other, and one health that two actors share. -/
def sampleWorld : Graph where
  type := world
  root := .list [.int 120,
    .plain (.sequence .record
      [.unsigned .w64 0xdeadbeef, .unsigned .w8 2, .text "skirmish"]),
    .object 0, .list [.object 1, .object 2, .object 3]]
  heap := worldHeap

end Chronicle.Sample
