import Chronicle.Codec.Scalar
import Chronicle.Fingerprint
import Chronicle.Limits
import Chronicle.WalkError

/-!
# Loop records

A record carries a comment, the fingerprint of the definitions in force when
it was made, and a payload.  Its layout is

    "loop" ' ' comment ' ' 0 | four fingerprint words | payload length | payload

with every number least significant octet first.  Records are independent of
each other, so a stream is a plain concatenation.
-/

namespace Chronicle.Loop

structure Record where
  comment : String
  fingerprint : Fingerprint
  payload : Bytes
  deriving DecidableEq, Repr

inductive CommentFault where
  | tooLong
  | zeroOctet
  deriving DecidableEq, Repr

def CommentFault.reason : CommentFault → String
  | .tooLong => "longer than the configured limit"
  | .zeroOctet => "contains a zero byte"

inductive LoopError where
  | badMagic (found : Bytes)
  | missingSeparator (after : String) (found : UInt8)
  | truncated (field : String) (offset : Nat)
  | commentTooLong (limit : Nat)
  | invalidUtf8
  | negativeLength (length : Int)
  | payloadTooLarge (length limit : Nat)
  | invalidComment (fault : CommentFault)
  | readerFailed
  | io
  /-- The octets that a comment may span are more than a machine word counts. -/
  | windowOverflow
  deriving DecidableEq, Repr

namespace LoopError

def kind : LoopError → ErrorKind
  | .io => .io
  | .invalidComment _ => .configuration
  | .windowOverflow => .crash
  | _ => .protocol

/-- The short name of a cause, for reports that a machine reads. -/
def label : LoopError → String
  | .badMagic _ => "BadMagic"
  | .missingSeparator _ _ => "MissingSeparator"
  | .truncated _ _ => "Truncated"
  | .commentTooLong _ => "CommentTooLong"
  | .invalidUtf8 => "InvalidUtf8"
  | .negativeLength _ => "NegativeLength"
  | .payloadTooLarge _ _ => "PayloadTooLarge"
  | .invalidComment _ => "InvalidComment"
  | .readerFailed => "ReaderFailed"
  | .io => "Io"
  | .windowOverflow => "WindowOverflow"

def message : LoopError → String
  | .badMagic found =>
      "bad magic [" ++ ", ".intercalate (found.map Hex.octet) ++ "]: not a loop record"
  | .missingSeparator after found =>
      s!"expected separator after {after}, found 0x{Hex.octet found}"
  | .truncated field offset => s!"record truncated in {field} at offset {offset}"
  | .commentTooLong limit => s!"comment longer than {limit} bytes"
  | .invalidUtf8 => "comment is not valid UTF-8"
  | .negativeLength length => s!"negative payload length {length}"
  | .payloadTooLarge length limit => s!"payload length {length} exceeds limit {limit}"
  | .invalidComment fault => s!"comment cannot be written: {fault.reason}"
  | .readerFailed => "reader stopped after an earlier malformed record"
  | .io => "input or output failed"
  | .windowOverflow => "attempt to add with overflow"

end LoopError

/-- A record made under other definitions than those in force. -/
structure Stale where
  recorded : Fingerprint
  expected : Fingerprint
  deriving DecidableEq, Repr

def Stale.message (s : Stale) : String :=
  s!"stale loop record: recorded with {s.recorded.toText}, " ++
    s!"current definitions are {s.expected.toText}"

def magic : Bytes := [108, 111, 111, 112]

def separator : UInt8 := 32

def terminator : UInt8 := 0

/-- The largest payload that both the limits and the length field allow. -/
def payloadLimit (limits : LoopLimits) : Nat :=
  min limits.maxPayload maxPayloadField

namespace Record

def encodedLength (r : Record) : Nat :=
  7 + (Utf8.encode r.comment).length + 16 + 4 + r.payload.length

/-- The written form of a record, whatever the limits. -/
def encode (r : Record) : Bytes :=
  magic ++ separator :: Utf8.encode r.comment ++ [separator, terminator] ++
    r.fingerprint.toBytes ++ leBytes 4 r.payload.length ++ r.payload

theorem length_encode (r : Record) : r.encode.length = r.encodedLength := by
  simp [encode, encodedLength, magic]
  omega

/-- The first reason, if any, for which a record cannot be written. -/
def refusal? (limits : LoopLimits) (r : Record) : Option LoopError :=
  if limits.maxComment < (Utf8.encode r.comment).length then
    some (.invalidComment .tooLong)
  else if terminator ∈ Utf8.encode r.comment then
    some (.invalidComment .zeroOctet)
  else if payloadLimit limits < r.payload.length then
    some (.payloadTooLarge r.payload.length (payloadLimit limits))
  else none

def encode? (limits : LoopLimits) (r : Record) : Except LoopError Bytes :=
  match r.refusal? limits with
  | some e => .error e
  | none => .ok r.encode

/-- Append the written form to a buffer, which a refusal leaves alone. -/
def encodeInto (limits : LoopLimits) (r : Record) : EStateM LoopError Bytes Unit := do
  match r.encode? limits with
  | .error e => throw e
  | .ok bs => modify (· ++ bs)

def isCurrent (r : Record) (expected : Fingerprint) : Bool :=
  r.fingerprint = expected

def verify (r : Record) (expected : Fingerprint) : Except Stale Unit :=
  if r.isCurrent expected then .ok () else .error ⟨r.fingerprint, expected⟩

end Record

end Chronicle.Loop
