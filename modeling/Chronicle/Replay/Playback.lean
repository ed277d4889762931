import Chronicle.Loop.Reader
import Chronicle.Walk.Snapshot

/-!
# Playback

Playback goes through a stream of records and restores the payload of each.  A
record made under other definitions is refused or passed over, as the policy
says; neither that nor a payload that cannot be restored keeps the records after
it from being delivered.
-/

namespace Chronicle.Replay

open Chronicle.Loop

inductive StalePolicy where
  | reject
  | skip
  deriving DecidableEq, Repr

structure Frame where
  index : Nat
  comment : String
  graph : Graph
  deriving BEq, Repr

inductive PlaybackError where
  | stale (index : Nat) (cause : Stale)
  | walk (index : Nat) (e : WalkError)
  | loop (e : LoopError)
  deriving DecidableEq, Repr

namespace PlaybackError

def isStale : PlaybackError → Bool
  | .stale _ _ => true
  | _ => false

def kind : PlaybackError → Option ErrorKind
  | .stale _ _ => none
  | .walk _ e => some e.kind
  | .loop e => some e.kind

def message : PlaybackError → String
  | .stale index cause => s!"record {index}: {cause.message}"
  | .walk index e => s!"record {index}: {e.message}"
  | .loop e => e.message

end PlaybackError

structure Playback where
  registry : Registry
  reader : Reader
  policy : StalePolicy := .reject
  limits : WalkLimits := {}
  /-- The number of records taken from the stream. -/
  index : Nat := 0
  skipped : Nat := 0

abbrev Playing := EStateM PlaybackError Playback

namespace Playback

def nextRecord : Playing (Option (Nat × Record)) := fun p =>
  match Reader.next p.reader with
  | .error e reader => .error (.loop e) { p with reader }
  | .ok none reader => .ok none { p with reader }
  | .ok (some rec) reader =>
      .ok (some (p.index, rec)) { p with reader, index := p.index + 1 }

/-- The frame of a record made under the definitions in force. -/
def frame (type : Ty) (index : Nat) (rec : Record) : Playing Frame := do
  let p ← get
  match p.registry.restore { limits := p.limits } type rec.payload with
  | .ok graph => return ⟨index, rec.comment, graph⟩
  | .error e => throw (.walk index e)

def nextFrameFrom (type : Ty) : Nat → Playing (Option Frame)
  | 0 => return none
  | fuel + 1 => do
      match ← nextRecord with
      | none => return none
      | some (index, rec) => do
          let p ← get
          match rec.verify p.registry.fingerprint with
          | .ok _ => return some (← frame type index rec)
          | .error stale =>
              match p.policy with
              | .reject => throw (.stale index stale)
              | .skip => do
                  set { p with skipped := p.skipped + 1 }
                  nextFrameFrom type fuel

def recordBound (p : Playback) : Nat := p.reader.source.size + 1

def nextFrame (type : Ty) : Playing (Option Frame) := do
  nextFrameFrom type (recordBound (← get))

def collectFrom (type : Ty) : Nat → Playing (List Frame)
  | 0 => return []
  | fuel + 1 => do
      match ← nextFrame type with
      | none => return []
      | some f => return f :: (← collectFrom type fuel)

def collect (type : Ty) : Playing (List Frame) := do
  collectFrom type (recordBound (← get))

end Playback

end Chronicle.Replay
