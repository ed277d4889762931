import Chronicle.Codec.Scalar
import Chronicle.Text.Utf8
import Chronicle.WalkError

/-!
# Writing

A writer appends to a buffer.  The only thing it can refuse is a length above
its limit, and it then leaves the buffer as it was.
-/

namespace Chronicle

structure ByteWriter where
  bytes : Array UInt8 := #[]
  limit : Nat := maxPrefix
  deriving DecidableEq, Repr

abbrev Writing := EStateM WalkError ByteWriter

namespace ByteWriter

/-- An empty writer; a limit above the widest prefix has no effect. -/
def withLimit (limit : Nat) : ByteWriter :=
  { limit := min limit maxPrefix }

def size (w : ByteWriter) : Nat := w.bytes.size

def toBytes (w : ByteWriter) : Bytes := w.bytes.toList

end ByteWriter

namespace Writing

def raw (bs : Bytes) : Writing Unit :=
  modify fun w => { w with bytes := w.bytes ++ bs }

def octet (b : UInt8) : Writing Unit := raw [b]

def scalar (s : Scalar) (n : Int) : Writing Unit := raw (s.encode n)

def bool (b : Bool) : Writing Unit := octet (if b then 1 else 0)

def length (n : Nat) : Writing Unit := do
  let w ← get
  if w.limit < n then
    throw (.lengthLimit n w.limit)
  else
    scalar .u32 n

def sized (bs : Bytes) : Writing Unit := do
  length bs.length
  raw bs

def text (s : String) : Writing Unit := sized (Utf8.encode s)

end Writing

end Chronicle
