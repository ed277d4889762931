import Chronicle.Loop.Record
import Chronicle.Loop.Source

/-!
# Reading records

A reader takes one record after another from a source.  Between records a
source may end; inside one it may not.  Once a record was malformed the reader
stays failed, while a failure of the source at a record boundary leaves it
where it was.
-/

namespace Chronicle.Loop

inductive ReaderState where
  | atBoundary
  | midRecord
  | failed
  | finished
  deriving DecidableEq, Repr

structure Reader where
  source : Source
  limits : LoopLimits := {}
  state : ReaderState := .atBoundary
  offset : Nat := 0
  recordsRead : Nat := 0
  deriving DecidableEq, Repr

abbrev RecordReading := EStateM LoopError Reader

namespace Reader

def ofBytes (bs : Bytes) (limits : LoopLimits) : Reader :=
  { source := { run := bs }, limits }

def commentWindow (limits : LoopLimits) : Nat :=
  limits.maxComment + 2

def field (name : String) (width : Nat) : RecordReading Bytes := do
  let r ← get
  match r.source.take width with
  | (.complete, bs, source) => do
      set { r with source, offset := r.offset + width }
      return bs
  | (.ended, _, source) => do
      set { r with source }
      throw (.truncated name r.offset)
  | (.failed, _, source) => do
      set { r with source }
      throw .io

/-- The comment with its separator and terminator: everything up to the first
zero octet.  The window has to be a machine word, or the host stops. -/
def commentOctets : RecordReading Bytes := do
  let r ← get
  let window := commentWindow r.limits
  if leBound 8 ≤ window then throw .windowOverflow
  match r.source.takeThrough terminator window with
  | (.failed, _, source) => do
      set { r with source }
      throw .io
  | (_, bs, source) => do
      let offset := r.offset + bs.length
      set { r with source, offset }
      if bs.getLast? = some terminator then
        return bs.dropLast
      else if window ≤ bs.length then
        throw (.commentTooLong r.limits.maxComment)
      else
        throw (.truncated "comment" offset)

def comment : RecordReading String := do
  let bs ← commentOctets
  match bs.getLast? with
  | none => throw (.missingSeparator "comment" terminator)
  | some last =>
      if last = separator then
        match Utf8.decode? bs.dropLast with
        | some s => return s
        | none => throw .invalidUtf8
      else
        throw (.missingSeparator "comment" last)

/-- The payload of a stated length.  What there is of an incomplete payload
counts as consumed when the source ends, not when it fails. -/
def payload (length : Nat) : RecordReading Bytes := do
  let r ← get
  match r.source.take length with
  | (.failed, _, source) => do
      set { r with source }
      throw .io
  | (.ended, bs, source) => do
      let offset := r.offset + bs.length
      set { r with source, offset }
      throw (.truncated "payload" offset)
  | (.complete, bs, source) => do
      set { r with source, offset := r.offset + bs.length }
      return bs

def payloadLength : RecordReading Nat := do
  let bs ← field "payload length" 4
  let length := Scalar.i32.decode bs
  let limit := payloadLimit (← get).limits
  if length < 0 then throw (.negativeLength length)
  else if limit < length.toNat then throw (.payloadTooLarge length.toNat limit)
  else return length.toNat

def record : RecordReading Record := do
  let start ← field "magic" 4
  if start ≠ magic then throw (.badMagic start)
  let gap ← field "separator" 1
  if gap ≠ [separator] then throw (.missingSeparator "magic" (gap.headD 0))
  let comment ← comment
  let words ← field "definition hash" 16
  let length ← payloadLength
  let payload ← payload length
  return ⟨comment, Fingerprint.ofBytes words, payload⟩

/-- Read a record inside which the source must not end; a failure is final. -/
def body : RecordReading Record := fun r =>
  match record { r with state := .midRecord } with
  | .ok rec r => .ok rec { r with state := .atBoundary, recordsRead := r.recordsRead + 1 }
  | .error e r => .error e { r with state := .failed }

def next : RecordReading (Option Record) := do
  let r ← get
  match r.state with
  | .finished => return none
  | .failed => throw .readerFailed
  | _ =>
      match r.source.poll with
      | (.failed, source) => do
          set { r with source }
          throw .io
      | (.ended, source) => do
          set { r with source, state := .finished }
          return none
      | (.complete, _) => return some (← body)

/-- One step of iteration over a stream: a record, an error, or none for a
stream that is over. -/
def step (r : Reader) : Option (Except LoopError Record) × Reader :=
  match r.state with
  | .failed | .finished => (none, r)
  | _ =>
      match next r with
      | .ok none r => (none, r)
      | .ok (some rec) r => (some (.ok rec), r)
      | .error e r => (some (.error e), r)

/-- The records up to the first error or the end, in at most `fuel` steps. -/
def collectFrom : Nat → Reader → Except LoopError (List Record)
  | 0, _ => .ok []
  | fuel + 1, r =>
      match r.step with
      | (none, _) => .ok []
      | (some (.error e), _) => .error e
      | (some (.ok rec), r) => do return rec :: (← collectFrom fuel r)

/-- All records of a stream, or its first error.  Each record takes octets, so
there are no more steps than octets and one for the end. -/
def collect (r : Reader) : Except LoopError (List Record) :=
  collectFrom (r.source.size + 1) r

end Reader

def Record.decode? (limits : LoopLimits) (bs : Bytes) : Except LoopError (Record × Nat) :=
  match Reader.next (Reader.ofBytes bs limits) with
  | .ok (some rec) r => .ok (rec, r.offset)
  | .ok none _ => .error (.truncated "magic" 0)
  | .error e _ => .error e

end Chronicle.Loop
