/-!
# Hexadecimal text

Fixed-width hexadecimal numerals, in lower case for fingerprints and in upper
case for the octets named in messages.
-/

namespace Chronicle.Hex

def lowerDigit (n : Nat) : Char :=
  if n < 10 then Char.ofNat (48 + n) else Char.ofNat (87 + n)

def upperDigit (n : Nat) : Char :=
  if n < 10 then Char.ofNat (48 + n) else Char.ofNat (55 + n)

/-- The low `width` digits of a number, most significant first. -/
def digits (digit : Nat → Char) : Nat → Nat → List Char
  | 0, _ => []
  | width + 1, n => digits digit width (n / 16) ++ [digit (n % 16)]

def lower (width n : Nat) : String :=
  String.ofList (digits lowerDigit width n)

def octet (b : UInt8) : String :=
  String.ofList (digits upperDigit 2 b.toNat)

end Chronicle.Hex
