import Chronicle.Codec.Scalar

/-!
# Limits

Every walk and every record is bounded.  Three of the four limits have a range
that the formats can honour; the comment limit has none.
-/

namespace Chronicle

structure WalkLimits where
  maxDepth : Nat := 512
  maxSequence : Nat := 16 * 1024 * 1024
  deriving DecidableEq, Repr

structure LoopLimits where
  maxComment : Nat := 1024
  maxPayload : Nat := 256 * 1024 * 1024
  deriving DecidableEq, Repr

structure Limits where
  walk : WalkLimits := {}
  loop : LoopLimits := {}
  deriving DecidableEq, Repr

/-- A limit outside the range its format can honour. -/
structure InvalidLimit where
  field : String
  value : Nat
  reason : String
  deriving DecidableEq, Repr

def InvalidLimit.message (e : InvalidLimit) : String :=
  s!"{e.field} = {e.value} is invalid: {e.reason}"

/-- The largest payload a record can state: its length field is signed. -/
def maxPayloadField : Nat := 0x7fffffff

namespace Limits

def validate (l : Limits) : Except InvalidLimit Unit := do
  if l.walk.maxDepth = 0 then
    throw ⟨"walk.max_depth", 0, "must be at least 1"⟩
  if maxPrefix < l.walk.maxSequence then
    throw ⟨"walk.max_sequence_len", l.walk.maxSequence, "length prefixes are 32-bit"⟩
  if maxPayloadField < l.loop.maxPayload then
    throw ⟨"loop.max_payload_len", l.loop.maxPayload,
      "payload length is a signed 32-bit field"⟩

end Limits

end Chronicle
