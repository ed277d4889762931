import Chronicle.Bytes

/-!
# Fixed-width scalars

Every number travels as a fixed number of octets.  Signed scalars are in two's
complement; floating-point and fixed-point numbers are held as their bits.
-/

namespace Chronicle

inductive Scalar where
  | u8
  | u16
  | u32
  | u64
  | i8
  | i16
  | i32
  | i64
  | f32
  | f64
  /-- A size of the host: a word whatever the host. -/
  | size
  | fixed64
  | fixed32
  deriving DecidableEq, Repr

namespace Scalar

def width : Scalar → Nat
  | .u8 | .i8 => 1
  | .u16 | .i16 => 2
  | .u32 | .i32 | .f32 | .fixed32 => 4
  | .u64 | .i64 | .f64 | .size | .fixed64 => 8

def signed : Scalar → Bool
  | .i8 | .i16 | .i32 | .i64 | .fixed64 | .fixed32 => true
  | _ => false

def modulus (s : Scalar) : Nat := leBound s.width

def Holds (s : Scalar) (n : Int) : Prop :=
  if s.signed then -(s.modulus : Int) ≤ 2 * n ∧ 2 * n < s.modulus
  else 0 ≤ n ∧ n < s.modulus

instance (s : Scalar) (n : Int) : Decidable (s.Holds n) := by
  unfold Holds
  infer_instance

/-- The octets of a number, reduced modulo the width. -/
def encode (s : Scalar) (n : Int) : Bytes :=
  leBytes s.width (n % s.modulus).toNat

def ofBits (s : Scalar) (bits : Nat) : Int :=
  if s.signed then Int.bmod bits s.modulus else bits

def decode (s : Scalar) (bs : Bytes) : Int :=
  s.ofBits (ofLeBytes bs)

@[simp] theorem length_encode (s : Scalar) (n : Int) :
    (s.encode n).length = s.width := by
  simp [encode]

theorem decode_encode {s : Scalar} {n : Int} (h : s.Holds n) :
    s.decode (s.encode n) = n := by
  have lt : (n % s.modulus).toNat % leBound s.width = (n % s.modulus).toNat := by
    apply Nat.mod_eq_of_lt
    have pos : (0 : Int) < s.modulus := by cases s <;> decide
    have := Int.emod_lt_of_pos n pos
    have nonneg := Int.emod_nonneg n (Int.ne_of_gt pos)
    change (n % s.modulus).toNat < s.modulus
    omega
  unfold decode encode ofBits
  rw [ofLeBytes_leBytes, lt]
  cases s <;> simp [Holds, signed, modulus, width, leBound, Int.bmod] at h ⊢ <;> omega

theorem holds_decode {s : Scalar} {bs : Bytes} (h : bs.length = s.width) :
    s.Holds (s.decode bs) := by
  have lt := ofLeBytes_lt bs
  rw [h] at lt
  unfold decode ofBits Holds
  generalize ofLeBytes bs = n at lt
  cases s <;> simp [signed, modulus, width, leBound, Int.bmod] at lt ⊢ <;> omega

theorem encode_decode {s : Scalar} {bs : Bytes} (h : bs.length = s.width) :
    s.encode (s.decode bs) = bs := by
  have lt := ofLeBytes_lt bs
  rw [h] at lt
  have same : ((s.decode bs) % s.modulus).toNat = ofLeBytes bs := by
    unfold decode ofBits
    generalize ofLeBytes bs = n at lt
    cases s <;> simp [signed, modulus, width, leBound, Int.bmod] at lt ⊢ <;> omega
  unfold encode
  rw [same, ← h, leBytes_ofLeBytes]

end Scalar

def maxPrefix : Nat := 0xffffffff

end Chronicle
