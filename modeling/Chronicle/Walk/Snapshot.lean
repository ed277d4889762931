import Chronicle.Limits
import Chronicle.Walk.Read

/-!
# Snapshots

A snapshot is the written form of a graph from its root; restoring one builds
the graph anew and has to use every octet.
-/

namespace Chronicle

/-- A root value, its type, and the objects it can refer to. -/
structure Graph where
  type : Ty
  root : Value
  heap : Heap := #[]
  /-- Objects whose content someone else is changing. -/
  borrowed : List Nat := []
  deriving BEq, Repr

structure WalkOptions where
  limits : WalkLimits := {}
  assets : Option AssetResolver := none

namespace Registry

def writeContext (r : Registry) (o : WalkOptions) (g : Graph) : WriteContext where
  registry := r
  heap := g.heap
  borrowed := g.borrowed
  assets := o.assets
  maxDepth := o.limits.maxDepth

def readContext (r : Registry) (o : WalkOptions) : ReadContext where
  registry := r
  assets := o.assets
  maxDepth := o.limits.maxDepth

/-- The outcome of writing a graph: all that the walk did, and its error if it
failed. -/
def writeGraph (r : Registry) (o : WalkOptions) (g : Graph) (counter : Nat) :
    EStateM.Result WalkError WriteState Unit :=
  Write.walk (r.writeContext o g) g.type g.root
    { out := ByteWriter.withLimit o.limits.maxSequence, counter }

/-- The snapshot of a graph, and the host's running number after it. -/
def snapshot (r : Registry) (o : WalkOptions) (g : Graph) (counter : Nat := 0) :
    Except WalkError Bytes × Nat :=
  match r.writeGraph o g counter with
  | .ok _ s => (.ok s.out.toBytes, s.counter)
  | .error e s => (.error e, s.counter)

/-- The outcome of reading a graph from the front of a byte string. -/
def readGraph (r : Registry) (o : WalkOptions) (type : Ty) (bs : Bytes) :
    EStateM.Result WalkError ReadState Value :=
  Read.fresh (r.readContext o) type
    { input := { rest := bs, limit := o.limits.maxSequence } }

def restore (r : Registry) (o : WalkOptions) (type : Ty) (bs : Bytes) :
    Except WalkError Graph :=
  match r.readGraph o type bs with
  | .error e _ => .error e
  | .ok root s =>
      if s.input.rest.isEmpty then .ok { type, root, heap := s.heap }
      else .error (.trailingBytes s.input.remaining)

def blank (r : Registry) (type : Ty) : Except WalkError Graph :=
  match r.makeBlank type #[] with
  | .ok root heap => .ok { type, root, heap }
  | .error e _ => .error e

end Registry

end Chronicle
