import Chronicle.Fingerprint
import Mathlib.Data.List.Basic
import Mathlib.Logic.ExistsUnique

/-!
# Octets that a fingerprint tells apart

Each step of a digest can be undone, since the prime it multiplies by is odd.  So a
digest that differs at one step differs ever after as long as the same octets are
fed, and two byte strings that differ in one place only never have the same
fingerprint.
-/

namespace Chronicle

namespace Digest

variable {d d' : Digest} {b b' : UInt8} {bs bs' : Bytes}

def unprime : Digest := 0xb1041ad2562ff2ff2ff2ff2ff2ff2ff3

theorem mul_prime_injective (same : d * prime = d' * prime) : d = d' := by
  have cancel : prime * unprime = 1#128 := by decide
  calc
    d = d * prime * unprime := by rw [BitVec.mul_assoc, cancel, BitVec.mul_one]
    _ = d' * prime * unprime := by rw [same]
    _ = d' := by rw [BitVec.mul_assoc, cancel, BitVec.mul_one]

theorem step_injective (same : d.step b = d'.step b) : d = d' :=
  (BitVec.xor_left_inj _).mp (mul_prime_injective same)

theorem octet_injective (same : d.step b = d.step b') : b = b' := by
  have wide := (BitVec.xor_right_inj _).mp (mul_prime_injective same)
  have narrow := congrArg (BitVec.setWidth 8) wide
  exact UInt8.toBitVec_inj.mp (by simpa using narrow)

theorem feed_injective (same : d.feed bs = d'.feed bs) : d = d' := by
  induction bs generalizing d d' with
  | nil => exact same
  | cons b bs ih => exact step_injective (ih same)

theorem feed_ne (differ : b ≠ b') (front rest : Bytes) :
    d.feed (front ++ b :: rest) ≠ d.feed (front ++ b' :: rest) := by
  intro same
  rw [feed_append, feed_append] at same
  exact differ (octet_injective (feed_injective same))

end Digest

namespace Fingerprint

theorem toBits_ofBits (bits : BitVec 128) : (ofBits bits).toBits = bits := by
  have join {start len start' len' : Nat} (next : start' = start + len) :
      bits.extractLsb' start' len' ++ bits.extractLsb' start len =
        bits.extractLsb' start (len' + len) :=
    BitVec.extractLsb'_append_extractLsb'_eq_extractLsb' next
  change bits.extractLsb' 96 32 ++ bits.extractLsb' 64 32 ++ bits.extractLsb' 32 32 ++
    bits.extractLsb' 0 32 = bits
  rw [join (by decide : 96 = 64 + 32), join (by decide : 64 = 32 + 32),
    join (by decide : 32 = 0 + 32)]
  exact BitVec.extractLsb'_eq_self

theorem ofBits_injective {bits bits' : BitVec 128} (same : ofBits bits = ofBits bits') :
    bits = bits' := by
  rw [← toBits_ofBits bits, same, toBits_ofBits]

theorem ofFed_ne {b b' : UInt8} (differ : b ≠ b') (front rest : Bytes) :
    ofFed (front ++ b :: rest) ≠ ofFed (front ++ b' :: rest) :=
  fun same => Digest.feed_ne differ front rest (ofBits_injective same)

end Fingerprint

/-- Byte strings of one length that differ in one place only are the same before and
behind it. -/
theorem Bytes.exists_split {bs bs' : Bytes} (length : bs.length = bs'.length)
    (once : ∃! i : Nat, bs[i]? ≠ bs'[i]?) :
    ∃ front b b' rest, bs = front ++ b :: rest ∧ bs' = front ++ b' :: rest ∧ b ≠ b' := by
  obtain ⟨i, differ, only⟩ := once
  have same : ∀ j, j ≠ i → bs[j]? = bs'[j]? := fun j apart => by
    by_contra other
    exact apart (only j other)
  have inside : i < bs.length := by
    by_contra outside
    rw [List.getElem?_eq_none (by omega), List.getElem?_eq_none (by omega)] at differ
    exact differ rfl
  have inside' : i < bs'.length := length ▸ inside
  have front : bs.take i = bs'.take i := by
    refine List.ext_getElem? fun j => ?_
    rw [List.getElem?_take, List.getElem?_take]
    split
    · exact same j (by omega)
    · rfl
  have rest : bs.drop (i + 1) = bs'.drop (i + 1) := by
    refine List.ext_getElem? fun j => ?_
    rw [List.getElem?_drop, List.getElem?_drop]
    exact same _ (by omega)
  refine ⟨bs.take i, bs[i], bs'[i], bs.drop (i + 1), ?_, ?_, ?_⟩
  · rw [List.getElem_cons_drop, List.take_append_drop]
  · rw [front, rest, List.getElem_cons_drop, List.take_append_drop]
  · intro equal
    exact differ (by rw [List.getElem?_eq_getElem inside, List.getElem?_eq_getElem inside', equal])

end Chronicle
