import Chronicle.Registry.Builder

/-!
# Validation

Before a registry is frozen, every type reachable from a root, or from a
content of polymorphic references, is checked to have the operations it will
need.  The search keeps the handlers it has not entered yet, so it ends on
cyclic definitions too.
-/

namespace Chronicle.Validation

/-- A dependency that waits to be checked, and who requires it. -/
structure Demand where
  dependency : Dependency
  requiredBy : String
  deriving DecidableEq, Repr

/-- What is wrong with a handler where it is demanded, whether or not it has
been entered before. -/
def objection? (h : Handler) (d : Demand) : Option RegistryError :=
  match h.kind with
  | .guard alternative => some (.nondeterministic h.name d.requiredBy alternative)
  | _ =>
      if d.dependency.needsInitializer && h.initializer.isNone then
        some (.missingOperation h.name d.requiredBy .make)
      else none

def entryObjection? (h : Handler) (d : Demand) : Option RegistryError :=
  if h.writer.isNone then some (.missingOperation h.name d.requiredBy .write)
  else if h.reader.isNone then some (.missingOperation h.name d.requiredBy .read)
  else none

def demands (h : Handler) : List Demand :=
  (h.dependencies.map fun d => ⟨d, h.name⟩).reverse

/-- Work through the demands, the latest first.  `fresh` lists the types of the
handlers not entered yet. -/
def search (b : Builder) (fresh : List Ty) : List Demand → Except RegistryError Unit
  | [] => .ok ()
  | d :: rest =>
      match b.find? d.dependency.type with
      | none => .error (.unregistered d.dependency.type.name d.requiredBy)
      | some h =>
          match objection? h d with
          | some e => .error e
          | none =>
              if d.dependency.type ∈ fresh then
                match entryObjection? h d with
                | some e => .error e
                | none => search b (fresh.erase d.dependency.type) (demands h ++ rest)
              else search b fresh rest
termination_by pending => (fresh.length, pending.length)
decreasing_by
  · rename_i entered
    apply Prod.Lex.left
    rw [List.length_erase_of_mem entered]
    have := List.length_pos_of_mem entered
    omega
  · apply Prod.Lex.right
    simp

/-- Check everything reachable from a type of which fresh values are made. -/
def validateFrom (b : Builder) (root : Ty) (requiredBy : String) :
    Except RegistryError Unit :=
  search b (b.handlers.map (·.type)) [⟨⟨root, true⟩, requiredBy⟩]

def firstClash? : List (String × String) → Option RegistryError
  | (name, first) :: (other, second) :: rest =>
      if name = other then some (.duplicateName name first second)
      else firstClash? ((other, second) :: rest)
  | _ => none

def nameLe (a b : String × String) : Bool :=
  ((compare a.1 b.1).then (compare a.2 b.2)).isLE

/-- The stable names that have to be distinct.  A reference has the name of its
type and no say in this. -/
def claimedNames (b : Builder) : List (String × String) :=
  (b.handlers.filter (·.kind ≠ .shared)).map fun h => (h.name, h.type.name)

def checkNames (b : Builder) : Except RegistryError Unit :=
  match firstClash? ((claimedNames b).mergeSort nameLe) with
  | some e => .error e
  | none => .ok ()

def sortedContents (b : Builder) : List Ty :=
  b.contents.mergeSort fun s t => (compare s.name t.name).isLE

def validate (b : Builder) : Except RegistryError Unit := do
  checkNames b
  b.roots.forM fun root => validateFrom b root "<root>"
  (sortedContents b).forM fun content => validateFrom b content "AnyShared"

end Chronicle.Validation
