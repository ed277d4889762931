import Chronicle.Loop.Ring
import Chronicle.Loop.Writer
import Chronicle.Walk.Snapshot

/-!
# Recording

A recorder takes snapshots, stamps them with the fingerprint of the definitions
in force, appends them to a stream and keeps the most recent ones at hand.  A
record enters the history only if the stream took it whole.
-/

namespace Chronicle.Replay

open Chronicle.Loop

inductive RecordError where
  | walk (e : WalkError)
  | loop (e : LoopError)
  deriving DecidableEq, Repr

def RecordError.kind : RecordError → ErrorKind
  | .walk e => e.kind
  | .loop e => e.kind

def RecordError.message : RecordError → String
  | .walk e => s!"snapshot failed: {e.message}"
  | .loop e => s!"append failed: {e.message}"

structure Recorder where
  registry : Registry
  writer : Writer
  history : Ring
  limits : WalkLimits := {}
  /-- The running number of the host. -/
  counter : Nat := 0

abbrev Recording := EStateM RecordError Recorder

namespace Recorder

/-- Append a record and remember it. -/
def record (rec : Record) : Recording Record := fun r =>
  match Writer.append rec r.writer with
  | .error e writer => .error (.loop e) { r with writer }
  | .ok _ writer => .ok rec { r with writer, history := r.history.push rec }

def capture (comment : String) (g : Graph) : Recording Record := do
  let r ← get
  match r.registry.snapshot { limits := r.limits } g r.counter with
  | (.error e, counter) => do
      set { r with counter }
      throw (.walk e)
  | (.ok payload, counter) => do
      set { r with counter }
      record ⟨comment, r.registry.fingerprint, payload⟩

def flush : EStateM LoopError Recorder Unit := fun r =>
  match Writer.flush r.writer with
  | .ok _ writer => .ok () { r with writer }
  | .error e writer => .error e { r with writer }

end Recorder

end Chronicle.Replay
