import Chronicle.Loop.Record
import Chronicle.Walk.Snapshot

/-!
# Divergence

Peers that went through the same inputs have equal snapshots.  When they do
not, the first octet in which two payloads differ is where to look; when one is
a beginning of the other, that is where the shorter one ends.
-/

namespace Chronicle

def firstDivergence : Bytes → Bytes → Option Nat
  | [], [] => none
  | [], _ :: _ => some 0
  | _ :: _, [] => some 0
  | a :: as, b :: bs =>
      if a = b then (firstDivergence as bs).map (· + 1) else some 0

structure PayloadDiff where
  firstDivergence : Option Nat
  lengthA : Nat
  lengthB : Nat
  deriving DecidableEq, Repr

namespace PayloadDiff

def of (a b : Bytes) : PayloadDiff :=
  ⟨Chronicle.firstDivergence a b, a.length, b.length⟩

def isIdentical (d : PayloadDiff) : Bool := d.firstDivergence.isNone

end PayloadDiff

structure RecordDiff where
  commentMatches : Bool
  fingerprintMatches : Bool
  payload : PayloadDiff
  deriving DecidableEq, Repr

namespace RecordDiff

def of (a b : Loop.Record) : RecordDiff where
  commentMatches := a.comment = b.comment
  fingerprintMatches := a.fingerprint = b.fingerprint
  payload := .of a.payload b.payload

def isIdentical (d : RecordDiff) : Bool :=
  d.commentMatches && d.fingerprintMatches && d.payload.isIdentical

end RecordDiff

/-- How the encodings of a value compare: the first with a second one, and the
first with that of the value restored from it. -/
structure Determinism where
  again : PayloadDiff
  roundTrip : PayloadDiff
  payload : Bytes
  deriving DecidableEq, Repr

def Determinism.isDeterministic (d : Determinism) : Bool :=
  d.again.isIdentical && d.roundTrip.isIdentical

namespace Registry

/-- A snapshot under the default limits, with the host's running number as
state. -/
def snapshotStep (r : Registry) (g : Graph) : EStateM WalkError Nat Bytes := fun counter =>
  match r.snapshot {} g counter with
  | (.ok bs, counter) => .ok bs counter
  | (.error e, counter) => .error e counter

/-- Write a graph twice, restore it, and write what was restored. -/
def determinism (r : Registry) (g : Graph) : EStateM WalkError Nat Determinism := do
  let first ← r.snapshotStep g
  let second ← r.snapshotStep g
  let restored ← liftResult (r.restore {} g.type first)
  let third ← r.snapshotStep restored
  return ⟨.of first second, .of first third, first⟩

def compareRecord (r : Registry) (record : Loop.Record) (g : Graph) :
    EStateM WalkError Nat RecordDiff := do
  let payload ← r.snapshotStep g
  return .of record ⟨record.comment, r.fingerprint, payload⟩

end Registry

end Chronicle
