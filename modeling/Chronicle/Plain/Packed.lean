import Chronicle.Plain.Datum
import Chronicle.Text.Utf8

/-!
# Packed plain data

A packed format turns plain data into one blob and back.  Records of numbers
and texts have a format of their own: a 64-bit number takes a tag and the
fewest octets that hold it, an octet stands for itself, and a text has its
length in front.  Reading accepts wider numbers than needed and numbers given
as an offset from a minimum.
-/

namespace Chronicle.Plain

/-- How a type's plain data is packed; both ways may refuse. -/
structure PackedFormat where
  encode : Datum → Except String Bytes
  decode : Bytes → Except String Datum

namespace Packed

/-- The kinds of field a packed record can have. -/
inductive Kind where
  | number
  | octet
  | text
  deriving DecidableEq, Repr

def encodeNumber (n : Nat) : Bytes :=
  if n < leBound 1 then 6 :: leBytes 1 n
  else if n < leBound 2 then 4 :: leBytes 2 n
  else if n < leBound 4 then 2 :: leBytes 4 n
  else 0 :: leBytes 8 n

def tagWidth? (tag : UInt8) : Option Nat :=
  match tag.toNat with
  | 0 => some 8
  | 1 | 2 => some 4
  | 3 | 4 => some 2
  | 5 | 6 => some 1
  | _ => none

/-- A number and the octets after it.  An odd tag has a minimum of eight octets
in front of the number, and the sum is taken modulo the width of a word. -/
def decodeNumber? : Bytes → Option (Nat × Bytes)
  | [] => none
  | tag :: rest => do
      let width ← tagWidth? tag
      if tag % 2 = 1 then
        let (least, rest) ← splitExact? 8 rest
        let (digits, rest) ← splitExact? width rest
        return ((ofLeBytes least + ofLeBytes digits) % leBound 8, rest)
      else
        let (digits, rest) ← splitExact? width rest
        return (ofLeBytes digits, rest)

def encodeLength (n : Nat) : Bytes :=
  if n < 255 then leBytes 1 n else 255 :: encodeNumber n

def decodeLength? : Bytes → Option (Nat × Bytes)
  | [] => none
  | b :: rest => if b = 255 then decodeNumber? rest else some (b.toNat, rest)

def encodeField : Kind → Datum → Option Bytes
  | .number, .unsigned .w64 n => some (encodeNumber n)
  | .octet, .unsigned .w8 n => some (leBytes 1 n)
  | .text, .text s => some (encodeLength (Utf8.encode s).length ++ Utf8.encode s)
  | _, _ => none

def decodeField? : Kind → Bytes → Option (Datum × Bytes)
  | .number, bs => do
      let (n, rest) ← decodeNumber? bs
      return (.unsigned .w64 n, rest)
  | .octet, b :: rest => some (.unsigned .w8 b.toNat, rest)
  | .octet, [] => none
  | .text, bs => do
      let (length, rest) ← decodeLength? bs
      let (octets, rest) ← splitExact? length rest
      let s ← Utf8.decode? octets
      return (.text s, rest)

def encodeFields : List Kind → List Datum → Option Bytes
  | [], [] => some []
  | kind :: kinds, d :: rest => do
      return (← encodeField kind d) ++ (← encodeFields kinds rest)
  | _, _ => none

def decodeFields? : List Kind → Bytes → Option (List Datum × Bytes)
  | [], bs => some ([], bs)
  | kind :: kinds, bs => do
      let (d, rest) ← decodeField? kind bs
      let (ds, rest) ← decodeFields? kinds rest
      return (d :: ds, rest)

/-- The format of records with fields of the given kinds.  The whole blob has
to be used. -/
def record (kinds : List Kind) : PackedFormat where
  encode
    | .sequence .record items =>
        match encodeFields kinds items with
        | some bs => .ok bs
        | none => .error "not a record of this type"
    | _ => .error "not a record"
  decode bs :=
    match decodeFields? kinds bs with
    | some (items, []) => .ok (.sequence .record items)
    | some (_, _ :: _) => .error "octets left over"
    | none => .error "malformed record"

/-- The format of data that stands for itself and takes no octets. -/
def empty : PackedFormat where
  encode _ := .ok []
  decode
    | [] => .ok .unit
    | _ :: _ => .error "octets left over"

end Packed

end Chronicle.Plain
