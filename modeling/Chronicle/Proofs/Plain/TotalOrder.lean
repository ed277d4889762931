import Mathlib

/-!
# Floating-point data and their total order

Floating-point bits stand for a number, for an infinity or for nothing that is a
number.  These data have a total order: numbers come by value, of the two zeros the
negative one first, and what is no number comes first or last as its sign says.  The
bits themselves need only be compared by sign and size for it, since from each size to
the next the number that it stands for grows.
-/

namespace Chronicle.Plain

open Float.Model (Format)
open Float.Model.UnpackedFloat (Sign unpack unpackSign unpackExponent unpackMantissa
  unpackSign_def unpackExponent_def unpackMantissa_def)

/-! ## Signs and sizes -/

structure Signed (α : Type) where
  sign : Sign
  size : α

namespace Signed

/-- Negative before positive; of two that are positive the smaller one first, of two
that are negative the larger one. -/
def Before {α : Type} [LT α] : Signed α → Signed α → Prop
  | ⟨.negative, _⟩, ⟨.positive, _⟩ => True
  | ⟨.positive, _⟩, ⟨.negative, _⟩ => False
  | ⟨.positive, a⟩, ⟨.positive, b⟩ => a < b
  | ⟨.negative, a⟩, ⟨.negative, b⟩ => b < a

def signOf (first : Bool) : Sign := if first then .negative else .positive

theorem signOf_injective {first first' : Bool} (same : signOf first = signOf first') :
    first = first' := by
  cases first <;> cases first' <;> simp [signOf] at same ⊢

def ofBits {width : Nat} (bits : BitVec width) : Signed Nat :=
  ⟨signOf bits.msb, (bits.setWidth (width - 1)).toNat⟩

theorem ofBits_injective {width : Nat} {bits bits' : BitVec (width + 1)}
    (same : ofBits bits = ofBits bits') : bits = bits' := by
  obtain ⟨sign, size⟩ := Signed.mk.inj same
  have others : bits.setWidth width = bits'.setWidth width := BitVec.toNat_inj.mp size
  rw [← BitVec.cons_msb_setWidth bits, ← BitVec.cons_msb_setWidth bits', signOf_injective sign,
    others]

theorem before_congr {α β : Type} [LT α] [LT β] {s s' : Sign} {a b : α} {a' b' : β}
    (less : a < b ↔ a' < b') (more : b < a ↔ b' < a') :
    Before ⟨s, a⟩ ⟨s', b⟩ ↔ Before ⟨s, a'⟩ ⟨s', b'⟩ := by
  cases s <;> cases s' <;> simp only [Before, less, more]

variable {x y : Signed Nat}

theorem before_of_lt (less : x.size < y.size) : x.Before y ↔ y.sign = .positive := by
  obtain ⟨s, m⟩ := x
  obtain ⟨s', m'⟩ := y
  cases s <;> cases s' <;> simp [Before] at less ⊢ <;> omega

theorem before_of_gt (more : y.size < x.size) : x.Before y ↔ x.sign = .negative := by
  obtain ⟨s, m⟩ := x
  obtain ⟨s', m'⟩ := y
  cases s <;> cases s' <;> simp [Before] at more ⊢ <;> omega

theorem before_of_eq (same : x.size = y.size) :
    x.Before y ↔ x.sign = .negative ∧ y.sign = .positive := by
  obtain ⟨s, m⟩ := x
  obtain ⟨s', m'⟩ := y
  cases s <;> cases s' <;> simp [Before] at same ⊢ <;> omega

def value : Signed ℚ → ℚ
  | ⟨.negative, a⟩ => -a
  | ⟨.positive, a⟩ => a

end Signed

/-! ## Data and their order -/

inductive FloatDatum where
  /-- A number.  Zero has a sign, too. -/
  | finite (number : Signed ℚ)
  | infinite (sign : Sign)
  /-- What is no number: a quiet or a signalling one, with a payload. -/
  | nan (sign : Sign) (quiet : Bool) (payload : Nat)

namespace FloatDatum

def IsNaN : FloatDatum → Prop
  | .nan _ _ _ => True
  | .finite _ | .infinite _ => False

instance : (d : FloatDatum) → Decidable d.IsNaN
  | .nan _ _ _ => .isTrue trivial
  | .finite _ | .infinite _ => .isFalse id

/-- The strict total order.  Numbers come by value and the negative zero before the
positive one; signalling before quiet and smaller payloads before larger, the other way
round if the sign is negative. -/
def Precedes : FloatDatum → FloatDatum → Prop
  | .finite x, .finite y =>
      x.value < y.value ∨ x.value = y.value ∧ x.sign = .negative ∧ y.sign = .positive
  | .finite _, .infinite s => s = .positive
  | .infinite s, .finite _ => s = .negative
  | .infinite s, .infinite s' => s = .negative ∧ s' = .positive
  | .nan s quiet payload, .nan s' quiet' payload' =>
      Signed.Before ⟨s, toLex (quiet, payload)⟩ ⟨s', toLex (quiet', payload')⟩
  | .nan s _ _, _ => s = .negative
  | _, .nan s _ _ => s = .positive

def ofBits (f : Format) (bits : BitVec f.numBits) : FloatDatum :=
  match unpack f bits with
  | .finite s mantissa exponent _ => .finite ⟨s, mantissa * 2 ^ exponent⟩
  | .zero s => .finite ⟨s, 0⟩
  | .infinity s => .infinite s
  | .notANumber =>
      .nan (.ofBitVec (unpackSign bits)) (unpackMantissa bits).msb
        ((unpackMantissa bits).setWidth (f.mantissaBitsWithoutImplicit - 1)).toNat

theorem finite_precedes_iff {x y : Signed ℚ} (hx : 0 ≤ x.size) (hy : 0 ≤ y.size) :
    (finite x).Precedes (finite y) ↔ x.Before y := by
  obtain ⟨s, a⟩ := x
  obtain ⟨s', b⟩ := y
  cases s <;> cases s' <;> simp only [Precedes, Signed.Before, Signed.value]
  case negative.negative => simp
  case negative.positive => simpa using lt_or_eq_of_le ((neg_nonpos.mpr hx).trans hy)
  case positive.negative => simpa using (neg_nonpos.mpr hy).trans hx
  case positive.positive => simp

end FloatDatum

/-! ## What sizes count -/

def units (p size : Nat) : Nat :=
  if size < 2 ^ p then size else (2 ^ p + size % 2 ^ p) * 2 ^ (size / 2 ^ p - 1)

variable {p k m size : Nat}

theorem units_normal (low : 2 ^ p ≤ m) (high : m < 2 ^ (p + 1)) :
    units p (2 ^ p * k + m) = m * 2 ^ k := by
  obtain ⟨r, rfl⟩ := Nat.exists_eq_add_of_le low
  have rest : r < 2 ^ p := by
    rw [pow_succ] at high
    omega
  have large : ¬ r + 2 ^ p * (k + 1) < 2 ^ p :=
    Nat.not_lt.mpr ((Nat.le_mul_of_pos_right _ k.succ_pos).trans (Nat.le_add_left _ r))
  have parts : 2 ^ p * k + (2 ^ p + r) = r + 2 ^ p * (k + 1) := by ring
  rw [parts, units, if_neg large, Nat.add_mul_mod_self_left, Nat.mod_eq_of_lt rest,
    Nat.add_mul_div_left _ _ (Nat.two_pow_pos p), Nat.div_eq_of_lt rest, Nat.zero_add,
    Nat.add_sub_cancel]

theorem exists_normal (large : 2 ^ p ≤ size) :
    ∃ k m, 2 ^ p ≤ m ∧ m < 2 ^ (p + 1) ∧ size = 2 ^ p * k + m := by
  have rest := Nat.mod_lt size (Nat.two_pow_pos p)
  obtain ⟨k, next⟩ :=
    Nat.exists_eq_add_one_of_ne_zero (Nat.div_pos large (Nat.two_pow_pos p)).ne'
  refine ⟨k, 2 ^ p + size % 2 ^ p, Nat.le_add_right _ _, by rw [pow_succ]; omega, ?_⟩
  calc
    size = 2 ^ p * (size / 2 ^ p) + size % 2 ^ p := (Nat.div_add_mod _ _).symm
    _ = 2 ^ p * k + (2 ^ p + size % 2 ^ p) := by rw [next]; ring

theorem units_strictMono (p : Nat) : StrictMono (units p) := by
  refine strictMono_nat_of_lt_succ fun size => ?_
  have half : 2 ^ p < 2 ^ (p + 1) := Nat.pow_lt_pow_succ Nat.one_lt_two
  rcases Nat.lt_or_ge size (2 ^ p) with small | large
  · rcases (Nat.succ_le_of_lt small).lt_or_eq with below | edge
    · rw [units, units, if_pos small, if_pos below]
      exact size.lt_succ_self
    · have first : units p (2 ^ p) = 2 ^ p := by simpa using units_normal (k := 0) le_rfl half
      rw [Nat.succ_eq_add_one] at edge
      rw [edge, first, units, if_pos small]
      exact small
  · obtain ⟨k, m, low, high, rfl⟩ := exists_normal large
    rw [units_normal low high]
    rcases (Nat.succ_le_of_lt high).lt_or_eq with below | edge
    · rw [Nat.add_assoc, units_normal (low.trans m.le_succ) below]
      exact Nat.mul_lt_mul_of_pos_right m.lt_succ_self (Nat.two_pow_pos k)
    · have carry : 2 ^ p * k + m + 1 = 2 ^ p * (k + 1) + 2 ^ p := by
        rw [Nat.add_assoc, ← Nat.succ_eq_add_one m, edge]
        ring
      have doubled : 2 ^ p * 2 ^ (k + 1) = 2 ^ (p + 1) * 2 ^ k := by ring
      rw [carry, units_normal le_rfl half, doubled]
      exact Nat.mul_lt_mul_of_pos_right high (Nat.two_pow_pos k)

theorem cast_shifted (m k : Nat) (exponent : ℤ) :
    ((m * 2 ^ k : Nat) * 2 ^ exponent : ℚ) = m * 2 ^ (k + exponent) := by
  rw [Nat.cast_mul, Nat.cast_pow, Nat.cast_ofNat, mul_assoc, ← zpow_natCast,
    ← zpow_add₀ two_ne_zero]

/-! ## Reading the bits of a format -/

namespace FloatDatum

variable {f : Format} (bits : BitVec f.numBits)

theorem numBits_sub_one (f : Format) :
    f.numBits - 1 = f.mantissaBitsWithoutImplicit + f.exponentBits := by
  simp only [Format.numBits]
  omega

theorem toNat_mantissa :
    (unpackMantissa bits).toNat = bits.toNat % 2 ^ f.mantissaBitsWithoutImplicit := by
  rw [unpackMantissa_def, BitVec.extractLsb'_toNat, Nat.shiftRight_zero]

theorem toNat_exponent :
    (unpackExponent bits).toNat =
      bits.toNat / 2 ^ f.mantissaBitsWithoutImplicit % 2 ^ f.exponentBits := by
  rw [unpackExponent_def, BitVec.extractLsb'_toNat, Nat.shiftRight_eq_div_pow]

theorem size_ofBits :
    (Signed.ofBits bits).size =
      2 ^ f.mantissaBitsWithoutImplicit * (unpackExponent bits).toNat +
        (unpackMantissa bits).toNat := by
  rw [Signed.ofBits, toNat_mantissa, toNat_exponent, BitVec.toNat_setWidth, numBits_sub_one,
    Nat.pow_add, Nat.mod_mul, Nat.add_comm]

theorem sign_ofBits : Sign.ofBitVec (unpackSign bits) = (Signed.ofBits bits).sign := by
  have first : unpackSign bits = BitVec.ofBool bits.msb := by
    rw [BitVec.msb_eq_getLsbD_last, numBits_sub_one]
    ext i inside
    obtain rfl : i = 0 := by omega
    simp [unpackSign_def]
  rw [first, Signed.ofBits]
  cases bits.msb <;> rfl

theorem minExponent_eq (f : Format) :
    f.minExponent = 1 - (f.exponentBias + f.mantissaBitsWithoutImplicit : ℤ) := by
  have bias : f.exponentBias + 1 = 2 ^ (f.exponentBits - 1) :=
    Nat.sub_add_cancel (Nat.two_pow_pos _)
  rw [Format.minExponent, Format.mantissaBits, ← Nat.cast_ofNat (n := 2), ← Nat.cast_pow, ← bias]
  push_cast
  ring

theorem toNat_normal (mantissa : BitVec f.mantissaBitsWithoutImplicit) :
    (1#1 ++ mantissa).toNat = 2 ^ f.mantissaBitsWithoutImplicit + mantissa.toNat := by
  rw [BitVec.toNat_append, ← Nat.shiftLeft_add_eq_or_of_lt mantissa.isLt, Nat.shiftLeft_eq,
    BitVec.toNat_one Nat.one_pos, Nat.one_mul]

def topSize (f : Format) : Nat := 2 ^ f.mantissaBitsWithoutImplicit * (2 ^ f.exponentBits - 1)

theorem exponent_eq_iff :
    unpackExponent bits = (-1#_) ↔ topSize f ≤ (Signed.ofBits bits).size := by
  have inside := (unpackMantissa bits).isLt
  have bound := (unpackExponent bits).isLt
  rw [BitVec.neg_one_eq_allOnes, ← BitVec.toNat_inj, BitVec.toNat_allOnes, size_ofBits, topSize]
  refine ⟨fun full => full ▸ Nat.le_add_right _ _, fun le => ?_⟩
  by_contra other
  have below := Nat.mul_le_mul_left (2 ^ f.mantissaBitsWithoutImplicit)
    (show (unpackExponent bits).toNat + 1 ≤ 2 ^ f.exponentBits - 1 by omega)
  rw [Nat.mul_add] at below
  omega

theorem ofBits_of_lt (small : (Signed.ofBits bits).size < topSize f) :
    ofBits f bits = .finite ⟨(Signed.ofBits bits).sign,
      units f.mantissaBitsWithoutImplicit (Signed.ofBits bits).size * 2 ^ f.minExponent⟩ := by
  have notFull : unpackExponent bits ≠ (-1#_) := fun full =>
    absurd ((exponent_eq_iff bits).mp full) (Nat.not_le.mpr small)
  have inside := (unpackMantissa bits).isLt
  have size := size_ofBits bits
  rw [ofBits, unpack]
  simp only [notFull, if_false, sign_ofBits, minExponent_eq]
  by_cases low : unpackExponent bits = 0#_
  · rw [if_pos low]
    simp only [low, BitVec.toNat_zero, Nat.mul_zero, Nat.zero_add] at size ⊢
    rw [size, units, if_pos inside]
    by_cases zero : unpackMantissa bits = 0#_
    · simp [zero]
    · rw [dif_neg zero]
      change finite ⟨_, _ * 2 ^ _⟩ = _
      rw [Nat.cast_zero, zero_sub, neg_add_eq_sub]
  · rw [if_neg low]
    obtain ⟨k, next⟩ :=
      Nat.exists_eq_add_one_of_ne_zero fun zero => low (BitVec.toNat_inj.mp zero)
    have normal : (Signed.ofBits bits).size = 2 ^ f.mantissaBitsWithoutImplicit * k +
        (2 ^ f.mantissaBitsWithoutImplicit + (unpackMantissa bits).toNat) := by
      rw [size, next]
      ring
    have high : 2 ^ f.mantissaBitsWithoutImplicit + (unpackMantissa bits).toNat <
        2 ^ (f.mantissaBitsWithoutImplicit + 1) := by
      rw [pow_succ]
      omega
    change finite ⟨_, _ * 2 ^ _⟩ = _
    rw [normal, units_normal (Nat.le_add_right _ _) high, next, toNat_normal, cast_shifted,
      Nat.cast_add_one, add_sub_assoc]

theorem ofBits_of_eq (top : (Signed.ofBits bits).size = topSize f) :
    ofBits f bits = .infinite (Signed.ofBits bits).sign := by
  have full := (exponent_eq_iff bits).mpr top.ge
  have zero : unpackMantissa bits = 0#_ := by
    have size := size_ofBits bits
    rw [full, top, topSize, BitVec.neg_one_eq_allOnes, BitVec.toNat_allOnes] at size
    exact BitVec.toNat_inj.mp (Nat.add_eq_left.mp size.symm)
  rw [ofBits, unpack]
  simp only [full, zero, if_true, sign_ofBits]

theorem ofBits_of_gt (large : topSize f < (Signed.ofBits bits).size) :
    ofBits f bits = .nan (Signed.ofBits bits).sign (unpackMantissa bits).msb
        ((unpackMantissa bits).setWidth (f.mantissaBitsWithoutImplicit - 1)).toNat ∧
      (Signed.ofBits bits).size = topSize f + (unpackMantissa bits).toNat := by
  have full := (exponent_eq_iff bits).mpr large.le
  have size := size_ofBits bits
  rw [full, BitVec.neg_one_eq_allOnes, BitVec.toNat_allOnes, ← topSize] at size
  have nonzero : unpackMantissa bits ≠ 0#_ := by
    intro zero
    rw [zero, BitVec.toNat_zero] at size
    omega
  refine ⟨?_, size⟩
  rw [ofBits, unpack]
  simp only [full, nonzero, if_true, if_false, sign_ofBits]

/-! ## The order of the bits -/

theorem toLex_lt_iff {width : Nat} (positive : 0 < width) (a b : BitVec width) :
    toLex (a.msb, (a.setWidth (width - 1)).toNat) <
        toLex (b.msb, (b.setWidth (width - 1)).toNat) ↔
      a.toNat < b.toNat := by
  obtain ⟨rest, rfl⟩ := Nat.exists_eq_add_one_of_ne_zero positive.ne'
  have parts (c : BitVec (rest + 1)) :
      c.toNat = c.msb.toNat * 2 ^ rest + (c.setWidth rest).toNat := by
    rw [← Nat.shiftLeft_eq, ← BitVec.toNat_cons', BitVec.cons_msb_setWidth]
  have ha := (a.setWidth rest).isLt
  have hb := (b.setWidth rest).isLt
  rw [Prod.Lex.toLex_lt_toLex, parts a, parts b, Nat.add_sub_cancel]
  cases a.msb <;> cases b.msb <;> simp [Bool.lt_iff, -BitVec.toNat_setWidth] <;> omega

theorem precedes_iff (a b : BitVec f.numBits) :
    (ofBits f a).Precedes (ofBits f b) ↔ (Signed.ofBits a).Before (Signed.ofBits b) := by
  have unit : (0 : ℚ) < 2 ^ f.minExponent := zpow_pos two_pos _
  rcases Nat.lt_trichotomy (Signed.ofBits a).size (topSize f) with low | top | high <;>
    rcases Nat.lt_trichotomy (Signed.ofBits b).size (topSize f) with low' | top' | high'
  · have less {m n : Nat} : (units f.mantissaBitsWithoutImplicit m * 2 ^ f.minExponent : ℚ) <
        units f.mantissaBitsWithoutImplicit n * 2 ^ f.minExponent ↔ m < n := by
      rw [mul_lt_mul_iff_left₀ unit, Nat.cast_lt, (units_strictMono _).lt_iff_lt]
    rw [ofBits_of_lt a low, ofBits_of_lt b low', finite_precedes_iff
      (mul_nonneg (Nat.cast_nonneg _) unit.le) (mul_nonneg (Nat.cast_nonneg _) unit.le)]
    exact Signed.before_congr less less
  · rw [ofBits_of_lt a low, ofBits_of_eq b top', Signed.before_of_lt (low.trans_eq top'.symm)]
    rfl
  · rw [ofBits_of_lt a low, (ofBits_of_gt b high').1, Signed.before_of_lt (low.trans high')]
    rfl
  · rw [ofBits_of_eq a top, ofBits_of_lt b low', Signed.before_of_gt (low'.trans_eq top.symm)]
    rfl
  · rw [ofBits_of_eq a top, ofBits_of_eq b top', Signed.before_of_eq (top.trans top'.symm)]
    rfl
  · rw [ofBits_of_eq a top, (ofBits_of_gt b high').1, Signed.before_of_lt (top.trans_lt high')]
    rfl
  · rw [(ofBits_of_gt a high).1, ofBits_of_lt b low', Signed.before_of_gt (low'.trans high)]
    rfl
  · rw [(ofBits_of_gt a high).1, ofBits_of_eq b top', Signed.before_of_gt (top'.trans_lt high)]
    rfl
  · obtain ⟨read, size⟩ := ofBits_of_gt a high
    obtain ⟨read', size'⟩ := ofBits_of_gt b high'
    have less : (unpackMantissa a).toNat < (unpackMantissa b).toNat ↔
        (Signed.ofBits a).size < (Signed.ofBits b).size := by
      rw [size, size', Nat.add_lt_add_iff_left]
    have more : (unpackMantissa b).toNat < (unpackMantissa a).toNat ↔
        (Signed.ofBits b).size < (Signed.ofBits a).size := by
      rw [size, size', Nat.add_lt_add_iff_left]
    rw [read, read']
    exact Signed.before_congr ((toLex_lt_iff f.hm _ _).trans less)
      ((toLex_lt_iff f.hm _ _).trans more)

end FloatDatum

end Chronicle.Plain
