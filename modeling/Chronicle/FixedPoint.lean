import Chronicle.Codec.Scalar

/-!
# Fixed-point numbers

A fixed-point number is an integer count of a power of two.  Conversions go
through the exact rational value of a double: to fixed point the value is
rounded to the nearest count, to a double it is rounded to the nearest
significand of 53 bits, and a tie goes to the even neighbour.
-/

namespace Chronicle

def shiftHalfEven (n shift : Nat) : Nat :=
  let quotient := n >>> shift
  let remainder := n - quotient <<< shift
  let twice := 2 * remainder
  let unit := 1 <<< shift
  if twice < unit then quotient
  else if twice = unit then quotient + quotient % 2
  else quotient + 1

namespace Double

/-- A finite double as sign, significand and binary exponent; none for
infinities and numbers that are not. -/
def decode? (bits : Nat) : Option (Bool × Nat × Int) :=
  let negative := bits >>> 63 % 2 = 1
  let exponent : Nat := bits >>> 52 % 0x800
  let fraction : Nat := bits % (1 <<< 52)
  if exponent = 0x7ff then none
  else if exponent = 0 then some (negative, fraction, -1074)
  else some (negative, (1 <<< 52) + fraction, (exponent : Int) - 1075)

/-- The bits of the double nearest to `m * 2 ^ exponent`, for values in the
normal range. -/
def encode (negative : Bool) (m : Nat) (exponent : Int) : Nat :=
  let sign := if negative then 1 <<< 63 else 0
  if m = 0 then sign
  else
    let length := m.log2 + 1
    let significand :=
      if length ≤ 53 then m <<< (53 - length) else shiftHalfEven m (length - 53)
    -- A carry out of the top bit lands in the exponent field.
    let biased := (exponent + (length : Int) + 1021).toNat
    sign + biased <<< 52 + significand

end Double

structure FixedPoint where
  /-- What holds the count. -/
  scalar : Scalar
  /-- The number of fractional bits. -/
  fraction : Nat
  deriving DecidableEq, Repr

namespace FixedPoint

def wide : FixedPoint := ⟨.fixed64, 32⟩

def compact : FixedPoint := ⟨.fixed32, 16⟩

/-- The nearest count to a double; none if the double has no value or one
outside the range. -/
def ofDouble? (p : FixedPoint) (double : Nat) : Option Int :=
  match Double.decode? double with
  | none => none
  | some (negative, m, exponent) =>
      let scaled := exponent + p.fraction
      let magnitude :=
        if 0 ≤ scaled then m <<< scaled.toNat else shiftHalfEven m (-scaled).toNat
      let n : Int := if negative then -magnitude else magnitude
      if p.scalar.Holds n then some n else none

def toDouble (p : FixedPoint) (n : Int) : Nat :=
  Double.encode (n < 0) n.natAbs (-(p.fraction : Int))

end FixedPoint

end Chronicle
