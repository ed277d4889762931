import Chronicle.Plain.OrderKey
import Chronicle.Proofs.Plain.TotalOrder

/-!
# Keys of floating-point numbers follow the total order

The key of a double is the size of its bits if they are positive, and behind them the
sizes count down from minus one.  So keys have the order of signs and sizes, which is
the total order of what the bits stand for.  A single that is a number is widened to a
double that stands for the same datum, so the keys of singles follow the total order,
too.
-/

namespace Chronicle.Plain

open Float.Model.UnpackedFloat (Sign)

/-! ## Signs and sizes as signed numbers -/

namespace Signed

def rank : Signed Nat → Int
  | ⟨.positive, size⟩ => size
  | ⟨.negative, size⟩ => -(size + 1)

theorem before_iff_rank_lt (x y : Signed Nat) : x.Before y ↔ x.rank < y.rank := by
  obtain ⟨s, m⟩ := x
  obtain ⟨s', m'⟩ := y
  cases s <;> cases s' <;> simp only [Before, rank, true_iff, false_iff] <;> omega

theorem rank_injective {x y : Signed Nat} (same : x.rank = y.rank) : x = y := by
  obtain ⟨s, m⟩ := x
  obtain ⟨s', m'⟩ := y
  cases s <;> cases s' <;> simp only [rank, mk.injEq, true_and] at same ⊢ <;> omega

end Signed

/-! ## Keys of doubles -/

theorem sshiftRight_sign (bits : BitVec 64) :
    bits.sshiftRight 63 = if bits.msb then BitVec.allOnes 64 else 0#64 := by
  ext i inside
  have first : (if within : 63 + i < 64 then bits[63 + i] else bits.msb) = bits.msb := by
    split
    · obtain rfl : i = 0 := by omega
      exact (BitVec.msb_eq_getMsbD_zero bits).symm
    · rfl
  rw [BitVec.getElem_sshiftRight, first]
  cases bits.msb with
  | false => exact (BitVec.getElem_zero inside).symm
  | true => exact (BitVec.getElem_allOnes i inside).symm

theorem toInt_cons (negative : Bool) (others : BitVec 63) :
    (BitVec.cons negative others).toInt =
      if negative then (others.toNat : Int) - 0x8000000000000000 else others.toNat := by
  rw [BitVec.toInt_eq_msb_cond, BitVec.msb_cons, BitVec.toNat_cons']
  cases negative with
  | false => simp
  | true =>
      simp only [Bool.toNat_true, Nat.one_shiftLeft, if_true]
      omega

theorem floatKey_cons (negative : Bool) (others : BitVec 63) :
    floatKey (BitVec.cons negative others) =
      Signed.rank ⟨Signed.signOf negative, others.toNat⟩ := by
  have inside := others.isLt
  rw [floatKey, sshiftRight_sign, BitVec.msb_cons]
  cases negative with
  | false =>
      have mask : (0#64 : BitVec 64) >>> 1 = 0#64 := rfl
      rw [if_neg Bool.false_ne_true, mask, BitVec.xor_zero, toInt_cons]
      rfl
  | true =>
      have mask : BitVec.allOnes 64 >>> 1 = BitVec.cons false (BitVec.allOnes 63) := rfl
      rw [if_pos rfl, mask, BitVec.cons_xor_cons, BitVec.xor_allOnes, Bool.xor_false, toInt_cons,
        BitVec.toNat_not, if_pos rfl]
      change _ = -((others.toNat : Int) + 1)
      omega

theorem floatKey_eq_rank (bits : BitVec 64) : floatKey bits = (Signed.ofBits bits).rank := by
  have parts := floatKey_cons bits.msb (bits.setWidth 63)
  rwa [BitVec.cons_msb_setWidth] at parts

theorem floatKey_lt_iff (a b : BitVec 64) :
    floatKey a < floatKey b ↔ (Signed.ofBits a).Before (Signed.ofBits b) := by
  rw [floatKey_eq_rank, floatKey_eq_rank, Signed.before_iff_rank_lt]

/-! ## Widening singles -/

def doubleBits (negative : Bool) (size : Nat) : BitVec 64 :=
  BitVec.ofNat 64 ((if negative then 1 <<< 63 else 0) + size)

theorem ofBits_doubleBits (negative : Bool) {size : Nat} (inside : size < 2 ^ 63) :
    Signed.ofBits (doubleBits negative size) = ⟨Signed.signOf negative, size⟩ := by
  have first : (doubleBits negative size).msb = negative := by
    rw [doubleBits, BitVec.msb_eq_decide, BitVec.toNat_ofNat]
    cases negative <;> simp <;> omega
  have others : ((doubleBits negative size).setWidth 63).toNat = size := by
    rw [doubleBits, BitVec.toNat_setWidth, BitVec.toNat_ofNat]
    cases negative <;> simp <;> omega
  rw [Signed.ofBits, first, others]

theorem finite_doubleBits (negative : Bool) {size : Nat} (small : size < 2 ^ 52 * 2047) :
    FloatDatum.ofBits .binary64 (doubleBits negative size) =
      .finite ⟨Signed.signOf negative, units 52 size * 2 ^ (-1074 : ℤ)⟩ := by
  have parts := ofBits_doubleBits negative (show size < 2 ^ 63 by omega)
  have low : (Signed.ofBits (doubleBits negative size)).size < FloatDatum.topSize .binary64 := by
    rw [parts]
    exact small
  rw [FloatDatum.ofBits_of_lt (f := .binary64) _ low, parts]
  rfl

theorem normalized {m : Nat} (nonzero : m ≠ 0) (small : m < 2 ^ 53) :
    2 ^ 52 ≤ m * 2 ^ (52 - m.log2) ∧ m * 2 ^ (52 - m.log2) < 2 ^ 53 := by
  have short : m.log2 ≤ 52 := Nat.le_of_lt_succ ((Nat.log2_lt nonzero).mpr small)
  have below : 2 ^ m.log2 * 2 ^ (52 - m.log2) = 2 ^ 52 := by
    rw [← pow_add, Nat.add_sub_cancel' short]
  have above : 2 ^ (m.log2 + 1) * 2 ^ (52 - m.log2) = 2 ^ 53 := by
    rw [← pow_add, Nat.add_right_comm, Nat.add_sub_cancel' short]
  rw [← below, ← above]
  exact ⟨Nat.mul_le_mul_right _ (Nat.log2_self_le nonzero),
    Nat.mul_lt_mul_of_pos_right Nat.lt_log2_self (Nat.two_pow_pos _)⟩

theorem encode_eq (negative : Bool) {m k : Nat} {exponent : Int} (nonzero : m ≠ 0)
    (small : m < 2 ^ 53) (place : exponent + m.log2 + 1022 = k) :
    BitVec.ofNat 64 (Double.encode negative m exponent) =
      doubleBits negative (2 ^ 52 * k + m * 2 ^ (52 - m.log2)) := by
  have short : m.log2 + 1 ≤ 53 := (Nat.log2_lt nonzero).mpr small
  have biased : (exponent + (m.log2 + 1 : Nat) + 1021).toNat = k := by omega
  simp only [Double.encode, if_neg nonzero, if_pos short, biased]
  rw [doubleBits, Nat.shiftLeft_eq k, Nat.shiftLeft_eq m, Nat.add_assoc, Nat.mul_comm k,
    Nat.add_sub_add_right 52 1]

theorem ofBits_encode (negative : Bool) {m : Nat} {exponent : Int} (small : m < 2 ^ 53)
    (low : -1022 ≤ exponent + m.log2) (high : exponent ≤ 971) :
    FloatDatum.ofBits .binary64 (BitVec.ofNat 64 (Double.encode negative m exponent)) =
      .finite ⟨Signed.signOf negative, m * 2 ^ exponent⟩ := by
  by_cases zero : m = 0
  · have read := finite_doubleBits negative (show 0 < 2 ^ 52 * 2047 by omega)
    rw [units, if_pos (by omega), Nat.cast_zero, zero_mul] at read
    rw [zero, Nat.cast_zero, zero_mul]
    exact read
  · obtain ⟨k, place⟩ := Int.eq_ofNat_of_zero_le (show 0 ≤ exponent + m.log2 + 1022 by omega)
    obtain ⟨first, last⟩ := normalized zero small
    have short := (Nat.log2_lt zero).mpr small
    have whole : ((52 - m.log2 : Nat) + (k + -1074) : ℤ) = exponent := by omega
    rw [encode_eq negative zero small place, finite_doubleBits negative (by omega),
      units_normal first last, cast_shifted, cast_shifted, whole]

theorem widen_eq {bits : BitVec 32} {negative : Bool} {size : Nat}
    (parts : Signed.ofBits bits = ⟨Signed.signOf negative, size⟩) :
    widen bits =
      if size / 2 ^ 23 = 255 then
        doubleBits negative
          (0x7ff0000000000000 +
            ((size % 2 ^ 23) <<< 29 ||| if size % 2 ^ 23 = 0 then 0 else 1 <<< 51))
      else if size / 2 ^ 23 = 0 then
        BitVec.ofNat 64 (Double.encode negative (size % 2 ^ 23) (-149))
      else
        BitVec.ofNat 64
          (Double.encode negative (2 ^ 23 + size % 2 ^ 23) ((size / 2 ^ 23 : Nat) - 150)) := by
  have inside := bits.isLt
  obtain ⟨sign, others⟩ := Signed.mk.inj parts
  obtain rfl := Signed.signOf_injective sign
  obtain rfl : bits.toNat % 2 ^ 31 = size := (BitVec.toNat_setWidth 31 bits).symm.trans others
  have first : bits.toNat >>> 31 % 2 = 1 ↔ bits.msb = true := by
    rw [BitVec.msb_eq_decide, Nat.shiftRight_eq_div_pow, decide_eq_true_iff]
    omega
  have exponent : bits.toNat >>> 23 % 0x100 = bits.toNat % 2 ^ 31 / 2 ^ 23 := by
    rw [Nat.shiftRight_eq_div_pow]
    omega
  have fraction : bits.toNat % (1 <<< 23) = bits.toNat % 2 ^ 31 % 2 ^ 23 :=
    (Nat.mod_mod_of_dvd _ (by decide)).symm
  rw [widen]
  simp only [first, exponent, fraction, Bool.decide_eq_true, doubleBits, Nat.add_assoc]
  rfl

theorem finite_widen {bits : BitVec 32} {negative : Bool} {size : Nat}
    (parts : Signed.ofBits bits = ⟨Signed.signOf negative, size⟩) (low : size < 2 ^ 23 * 255) :
    FloatDatum.ofBits .binary64 (widen bits) =
      .finite ⟨Signed.signOf negative, units 23 size * 2 ^ (-149 : ℤ)⟩ := by
  rw [widen_eq parts, if_neg (by omega)]
  rcases Nat.lt_or_ge size (2 ^ 23) with small | large
  · rw [if_pos (Nat.div_eq_of_lt small), Nat.mod_eq_of_lt small,
      ofBits_encode negative (by omega) (by omega) (by omega), units, if_pos small]
  · obtain ⟨k, m, first, last, rfl⟩ := exists_normal large
    have digits : m.log2 = 23 := (Nat.log2_eq_iff (by omega)).mpr ⟨first, last⟩
    have exponent : (2 ^ 23 * k + m) / 2 ^ 23 = k + 1 := by omega
    have mantissa : 2 ^ 23 + (2 ^ 23 * k + m) % 2 ^ 23 = m := by omega
    have place : (k : ℤ) + -149 = (k + 1 : Nat) - 150 := by omega
    rw [exponent, if_neg k.succ_ne_zero, mantissa,
      ofBits_encode negative (by omega) (by omega) (by omega), units_normal first last,
      cast_shifted, place]

theorem ofBits_widen {bits : BitVec 32} (number : ¬ (FloatDatum.ofBits .binary32 bits).IsNaN) :
    FloatDatum.ofBits .binary64 (widen bits) = FloatDatum.ofBits .binary32 bits := by
  obtain ⟨negative, size, parts⟩ :
      ∃ negative size, Signed.ofBits bits = ⟨Signed.signOf negative, size⟩ := ⟨_, _, rfl⟩
  have top : FloatDatum.topSize .binary32 = 2 ^ 23 * 255 := rfl
  rcases Nat.lt_trichotomy (Signed.ofBits bits).size (FloatDatum.topSize .binary32)
    with low | infinite | high
  · rw [FloatDatum.ofBits_of_lt (f := .binary32) bits low, parts]
    rw [parts, top] at low
    exact finite_widen parts low
  · rw [FloatDatum.ofBits_of_eq (f := .binary32) bits infinite, parts]
    rw [parts, top] at infinite
    obtain rfl : size = 2 ^ 23 * 255 := infinite
    have wide : widen bits = doubleBits negative 0x7ff0000000000000 := by
      rw [widen_eq parts, if_pos (by decide)]
      exact congrArg (doubleBits negative) (by decide)
    have read := ofBits_doubleBits negative (show 0x7ff0000000000000 < 2 ^ 63 by omega)
    rw [wide, FloatDatum.ofBits_of_eq (f := .binary64) _ (by rw [read]; rfl), read]
  · rw [(FloatDatum.ofBits_of_gt (f := .binary32) bits high).1] at number
    exact absurd trivial number

theorem floatKey_widen_lt_iff {a b : BitVec 32}
    (ha : ¬ (FloatDatum.ofBits .binary32 a).IsNaN)
    (hb : ¬ (FloatDatum.ofBits .binary32 b).IsNaN) :
    floatKey (widen a) < floatKey (widen b) ↔ (Signed.ofBits a).Before (Signed.ofBits b) := by
  rw [floatKey_lt_iff, ← FloatDatum.precedes_iff (f := .binary64), ofBits_widen ha, ofBits_widen hb,
    FloatDatum.precedes_iff (f := .binary32)]

/-! ## Keys of floating-point numbers -/

theorem eq_of_key_eq {width : Nat} {a b : BitVec (width + 1)} {k k' : Int}
    (order : k < k' ↔ (Signed.ofBits a).Before (Signed.ofBits b))
    (order' : k' < k ↔ (Signed.ofBits b).Before (Signed.ofBits a)) (same : k = k') : a = b := by
  rw [Signed.before_iff_rank_lt] at order order'
  exact Signed.ofBits_injective (Signed.rank_injective (by omega))

/-- Keys of doubles, and of singles that are numbers or infinities, follow the total
order of what the bits stand for, which is that of their signs and sizes, and no two
have one key. -/
theorem float_keys_in_total_order :
    (∀ a b : BitVec 64,
      (Datum.double a).key = .ok (.float (floatKey a)) ∧
      (floatKey a < floatKey b ↔
        (FloatDatum.ofBits .binary64 a).Precedes (FloatDatum.ofBits .binary64 b)) ∧
      (floatKey a < floatKey b ↔ (Signed.ofBits a).Before (Signed.ofBits b)) ∧
      (floatKey a = floatKey b → a = b)) ∧
    ∀ a b : BitVec 32,
      ¬ (FloatDatum.ofBits .binary32 a).IsNaN → ¬ (FloatDatum.ofBits .binary32 b).IsNaN →
      (Datum.single a).key = .ok (.float (floatKey (widen a))) ∧
      (floatKey (widen a) < floatKey (widen b) ↔
        (FloatDatum.ofBits .binary32 a).Precedes (FloatDatum.ofBits .binary32 b)) ∧
      (floatKey (widen a) < floatKey (widen b) ↔ (Signed.ofBits a).Before (Signed.ofBits b)) ∧
      (floatKey (widen a) = floatKey (widen b) → a = b) := by
  refine ⟨fun a b => ⟨rfl, ?_, floatKey_lt_iff a b, ?_⟩, fun a b ha hb => ⟨rfl, ?_, ?_, ?_⟩⟩
  · exact (floatKey_lt_iff a b).trans (FloatDatum.precedes_iff (f := .binary64) a b).symm
  · exact eq_of_key_eq (floatKey_lt_iff a b) (floatKey_lt_iff b a)
  · exact (floatKey_widen_lt_iff ha hb).trans (FloatDatum.precedes_iff (f := .binary32) a b).symm
  · exact floatKey_widen_lt_iff ha hb
  · exact eq_of_key_eq (floatKey_widen_lt_iff ha hb) (floatKey_widen_lt_iff hb ha)

/-- The largest and the least of the negative singles below the normal ones; both are
widened to normal doubles. -/
theorem float_keys_in_total_order_subnormal :
    ¬ (FloatDatum.ofBits .binary32 0x807fffff#32).IsNaN ∧
    ¬ (FloatDatum.ofBits .binary32 0x80000001#32).IsNaN ∧
    floatKey (widen 0x807fffff#32) < floatKey (widen 0x80000001#32) ∧
    (FloatDatum.ofBits .binary32 0x807fffff#32).Precedes
      (FloatDatum.ofBits .binary32 0x80000001#32) := by
  have first : ¬ (FloatDatum.ofBits .binary32 0x807fffff#32).IsNaN := by decide
  have last : ¬ (FloatDatum.ofBits .binary32 0x80000001#32).IsNaN := by decide
  obtain ⟨_, order, signs, _⟩ := float_keys_in_total_order.2 0x807fffff#32 0x80000001#32 first last
  have less := signs.mpr ((Signed.before_iff_rank_lt _ _).mpr (by decide))
  exact ⟨first, last, less, order.mp less⟩

/-- A signalling single becomes quiet when it is widened, and then two have one key. -/
example : widen 0x7f800001#32 = widen 0x7fc00001#32 := by decide

end Chronicle.Plain
