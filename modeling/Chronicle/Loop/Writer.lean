import Chronicle.Loop.Record

/-!
# Writing records

A sink accepts octets up to its capacity and then refuses, keeping what it
took.  A writer appends whole records to a sink and counts those that went in
completely.
-/

namespace Chronicle.Loop

structure Sink where
  content : Bytes := []
  /-- How many octets it holds in all; none for a sink without bound. -/
  capacity : Option Nat := none
  flushFails : Bool := false
  deriving DecidableEq, Repr

namespace Sink

/-- Write all of a byte string, or as much as fits and then fail. -/
def write (bs : Bytes) : EStateM LoopError Sink Unit := do
  let s ← get
  match s.capacity with
  | none => set { s with content := s.content ++ bs }
  | some capacity =>
      let room := capacity - s.content.length
      set { s with content := s.content ++ bs.take room }
      if room < bs.length then throw .io

def flush : EStateM LoopError Sink Unit := do
  if (← get).flushFails then throw .io

end Sink

structure Writer where
  sink : Sink := {}
  limits : LoopLimits := {}
  recordsWritten : Nat := 0
  deriving DecidableEq, Repr

abbrev RecordWriting := EStateM LoopError Writer

namespace Writer

def onSink (act : EStateM LoopError Sink Unit) : RecordWriting Unit := fun w =>
  match act w.sink with
  | .ok _ sink => .ok () { w with sink }
  | .error e sink => .error e { w with sink }

def append (rec : Record) : RecordWriting Unit := do
  match rec.encode? (← get).limits with
  | .error e => throw e
  | .ok bs => do
      onSink (Sink.write bs)
      modify fun w => { w with recordsWritten := w.recordsWritten + 1 }

def flush : RecordWriting Unit := onSink Sink.flush

end Writer

end Chronicle.Loop
