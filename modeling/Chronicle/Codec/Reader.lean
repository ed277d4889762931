import Chronicle.Codec.Scalar
import Chronicle.Text.Utf8
import Chronicle.WalkError

/-!
# Reading

A reader consumes its input from the front.  A read that fails keeps what it
had consumed by then: a refused boolean, length or text has passed the octets
it was read from, while running out of input consumes nothing of the field at
hand.
-/

namespace Chronicle

structure ByteReader where
  rest : Bytes
  position : Nat := 0
  limit : Nat := maxPrefix
  deriving DecidableEq, Repr

abbrev Reading := EStateM WalkError ByteReader

def ByteReader.remaining (r : ByteReader) : Nat := r.rest.length

namespace Reading

def raw (n : Nat) : Reading Bytes := do
  let r ← get
  match splitExact? n r.rest with
  | none => throw (.unexpectedEnd n r.remaining)
  | some (front, rest) => do
      set { r with rest := rest, position := r.position + n }
      return front

def scalar (s : Scalar) : Reading Int := do
  return s.decode (← raw s.width)

/-- A 32-bit number that is no quantity of the host, such as an identifier. -/
def word : Reading Nat := do
  return ofLeBytes (← raw 4)

def octet : Reading UInt8 := do
  match ← raw 1 with
  | [b] => return b
  | _ => throw (.unexpectedEnd 1 0)

def bool : Reading Bool := do
  let b ← octet
  if b = 0 then return false
  else if b = 1 then return true
  else throw (.invalidTag "bool" b)

def length : Reading Nat := do
  let n ← word
  let r ← get
  if r.limit < n then throw (.lengthLimit n r.limit) else return n

def sized : Reading Bytes := do
  raw (← length)

def text : Reading String := do
  match Utf8.decode? (← sized) with
  | some s => return s
  | none => throw .invalidUtf8

end Reading

end Chronicle
