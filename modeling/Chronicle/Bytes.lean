/-!
# Byte strings

Byte strings are lists of octets.  A natural number is laid out in a fixed
number of octets, least significant first; reading the octets back gives the
number modulo how many numbers fit the width.
-/

namespace Chronicle

abbrev Bytes := List UInt8

/-- The low `width` octets of a number, least significant first. -/
def leBytes : Nat → Nat → Bytes
  | 0, _ => []
  | width + 1, n => UInt8.ofNat n :: leBytes width (n / 256)

def leBound : Nat → Nat
  | 0 => 1
  | width + 1 => 256 * leBound width

/-- The number whose octets these are, least significant first. -/
def ofLeBytes : Bytes → Nat
  | [] => 0
  | b :: rest => b.toNat + 256 * ofLeBytes rest

@[simp] theorem length_leBytes (width n : Nat) :
    (leBytes width n).length = width := by
  induction width generalizing n with
  | zero => rfl
  | succ width ih => simp [leBytes, ih]

theorem ofLeBytes_leBytes (width n : Nat) :
    ofLeBytes (leBytes width n) = n % leBound width := by
  induction width generalizing n with
  | zero => simp [leBytes, ofLeBytes, leBound, Nat.mod_one]
  | succ width ih =>
      simp only [leBytes, ofLeBytes, leBound, ih, UInt8.toNat_ofNat']
      exact (Nat.mod_mul (x := n) (a := 256) (b := leBound width)).symm

theorem ofLeBytes_lt (bs : Bytes) : ofLeBytes bs < leBound bs.length := by
  induction bs with
  | nil => simp [ofLeBytes, leBound]
  | cons b rest ih =>
      have hb : b.toNat < 256 := b.toNat_lt
      simp only [ofLeBytes, List.length_cons, leBound]
      omega

theorem leBytes_ofLeBytes (bs : Bytes) :
    leBytes bs.length (ofLeBytes bs) = bs := by
  induction bs with
  | nil => rfl
  | cons b rest ih =>
      have hb : b.toNat < 256 := b.toNat_lt
      have hdiv : (b.toNat + 256 * ofLeBytes rest) / 256 = ofLeBytes rest := by omega
      have hmod : UInt8.ofNat (b.toNat + 256 * ofLeBytes rest) = b := by
        apply UInt8.toNat_inj.mp
        simp only [UInt8.toNat_ofNat']
        omega
      simp only [List.length_cons, leBytes, ofLeBytes, hdiv, hmod, ih]

def splitExact? {α : Type} (n : Nat) (xs : List α) : Option (List α × List α) :=
  if (xs.take n).length = n then some (xs.take n, xs.drop n) else none

theorem splitExact?_append {α : Type} (xs ys : List α) :
    splitExact? xs.length (xs ++ ys) = some (xs, ys) := by
  simp [splitExact?]

theorem splitExact?_eq_some {α : Type} {n : Nat} {xs front rest : List α}
    (h : splitExact? n xs = some (front, rest)) :
    xs = front ++ rest ∧ front.length = n := by
  unfold splitExact? at h
  split at h
  · next hlen =>
      simp only [Option.some.injEq, Prod.mk.injEq] at h
      obtain ⟨rfl, rfl⟩ := h
      exact ⟨(List.take_append_drop n xs).symm, hlen⟩
  · contradiction

theorem splitExact?_eq_none {α : Type} {n : Nat} {xs : List α} :
    splitExact? n xs = none ↔ xs.length < n := by
  unfold splitExact?
  split
  · next hlen => simp only [List.length_take] at hlen; simp; omega
  · next hlen => simp only [List.length_take] at hlen; simp; omega

end Chronicle
