import Chronicle.FixedPoint

/-!
# Keys of floating-point numbers

The key of a double is its bits read as a signed number, with the bits below
the sign flipped when the sign is set.  Singles are widened to doubles first,
which is exact; the payload of one that is no number is kept and made quiet.
-/

namespace Chronicle.Plain

def floatKey (bits : BitVec 64) : Int :=
  (bits ^^^ (bits.sshiftRight 63 >>> 1)).toInt

def widen (bits : BitVec 32) : BitVec 64 :=
  let n : Nat := bits.toNat
  let negative := n >>> 31 % 2 = 1
  let sign : Nat := if negative then 1 <<< 63 else 0
  let exponent : Nat := n >>> 23 % 0x100
  let fraction : Nat := n % (1 <<< 23)
  if exponent = 0xff then
    let quiet : Nat := if fraction = 0 then 0 else 1 <<< 51
    BitVec.ofNat 64 (sign + 0x7ff0000000000000 + (fraction <<< 29 ||| quiet))
  else if exponent = 0 then
    BitVec.ofNat 64 (Double.encode negative fraction (-149))
  else
    BitVec.ofNat 64 (Double.encode negative ((1 <<< 23) + fraction) ((exponent : Int) - 150))

end Chronicle.Plain
