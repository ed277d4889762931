import Chronicle.Divergence
import Chronicle.Proofs.Walk.ReadSteps
import Mathlib.Data.List.Infix

/-!
# Where payloads part

Two payloads part at the end of their longest common beginning, and only payloads that
are equal never part.  So the verdict on a root says no more and no less than that all
its encodings are equal, and its two places are the first at which they differ.
-/

namespace Chronicle

open Success

/-! ## The longest common beginning -/

/-- `p` is a beginning of both lists, and every other common one is a beginning of it. -/
structure LongestBeginning {α : Type} (p as bs : List α) : Prop where
  left : p <+: as
  right : p <+: bs
  longest : ∀ q, q <+: as → q <+: bs → q <+: p

namespace LongestBeginning

variable {α : Type} {a b : α} {p q as bs : List α}

theorem unique (h : LongestBeginning p as bs) (h' : LongestBeginning q as bs) : p = q :=
  (h'.longest p h.left h.right).eq_of_length_le (h.longest q h'.left h'.right).length_le

theorem nil_left (bs : List α) : LongestBeginning [] [] bs :=
  ⟨List.prefix_rfl, List.nil_prefix, fun _ h _ => h⟩

theorem nil_right (as : List α) : LongestBeginning [] as [] :=
  ⟨List.nil_prefix, List.prefix_rfl, fun _ _ h => h⟩

theorem of_ne (differ : a ≠ b) : LongestBeginning [] (a :: as) (b :: bs) := by
  refine ⟨List.nil_prefix, List.nil_prefix, fun q left right => ?_⟩
  cases q with
  | nil => exact List.prefix_rfl
  | cons c q =>
      obtain ⟨rfl, -⟩ := List.cons_prefix_cons.mp left
      exact absurd (List.cons_prefix_cons.mp right).1 differ

theorem cons (h : LongestBeginning p as bs) : LongestBeginning (a :: p) (a :: as) (a :: bs) := by
  refine ⟨(List.prefix_cons_inj a).mpr h.left, (List.prefix_cons_inj a).mpr h.right,
    fun q left right => ?_⟩
  cases q with
  | nil => exact List.nil_prefix
  | cons c q =>
      obtain ⟨rfl, behind⟩ := List.cons_prefix_cons.mp left
      exact (List.prefix_cons_inj c).mpr (h.longest q behind (List.cons_prefix_cons.mp right).2)

end LongestBeginning

def PartAt {α : Type} (as bs : List α) (i : Nat) : Prop :=
  as ≠ bs ∧ ∃ p, LongestBeginning p as bs ∧ p.length = i

theorem PartAt.unique {α : Type} {as bs : List α} {i j : Nat} (h : PartAt as bs i)
    (h' : PartAt as bs j) : i = j := by
  obtain ⟨-, p, longest, rfl⟩ := h
  obtain ⟨-, q, longest', rfl⟩ := h'
  rw [longest.unique longest']

/-! ## The first divergence -/

variable {a b : Bytes} {i : Nat}

theorem firstDivergence_self (a : Bytes) : firstDivergence a a = none := by
  induction a with
  | nil => rfl
  | cons c a ih => simp [firstDivergence, ih]

theorem partAt_of_firstDivergence (found : firstDivergence a b = some i) : PartAt a b i := by
  fun_induction firstDivergence a b generalizing i with
  | case1 => contradiction
  | case2 d b =>
      obtain rfl := Option.some.inj found
      exact ⟨by simp, [], .nil_left _, rfl⟩
  | case3 c a =>
      obtain rfl := Option.some.inj found
      exact ⟨by simp, [], .nil_right _, rfl⟩
  | case4 a c b ih =>
      obtain ⟨j, behind, rfl⟩ := Option.map_eq_some_iff.mp found
      obtain ⟨differ, p, longest, rfl⟩ := ih behind
      exact ⟨by simpa using differ, c :: p, longest.cons, rfl⟩
  | case5 c a d b differ =>
      obtain rfl := Option.some.inj found
      exact ⟨by simp [differ], [], .of_ne differ, rfl⟩

theorem firstDivergence_eq_none_iff : firstDivergence a b = none ↔ a = b := by
  constructor
  · intro found
    fun_induction firstDivergence a b with
    | case1 => rfl
    | case4 a c b ih => rw [ih (Option.map_eq_none_iff.mp found)]
    | case2 | case3 | case5 => contradiction
  · rintro rfl
    exact firstDivergence_self a

theorem firstDivergence_eq_some_iff : firstDivergence a b = some i ↔ PartAt a b i := by
  refine ⟨partAt_of_firstDivergence, fun part => ?_⟩
  cases found : firstDivergence a b with
  | none => exact absurd (firstDivergence_eq_none_iff.mp found) part.1
  | some j => rw [(partAt_of_firstDivergence found).unique part]

/-! ## Two searches -/

def firstMismatch (a b : Bytes) : Option Nat :=
  (a.zip b).findIdx? fun pair => pair.1 != pair.2

def firstOverhang (a b : Bytes) : Option Nat :=
  if a.length = b.length then none else some (min a.length b.length)

theorem firstMismatch_cons_self (c : UInt8) (a b : Bytes) :
    firstMismatch (c :: a) (c :: b) = (firstMismatch a b).map (· + 1) := by
  simp [firstMismatch, List.findIdx?_cons]

theorem firstOverhang_cons (c d : UInt8) (a b : Bytes) :
    firstOverhang (c :: a) (d :: b) = (firstOverhang a b).map (· + 1) := by
  simp only [firstOverhang, List.length_cons, Nat.add_right_cancel_iff]
  split
  · rfl
  · simp

theorem firstDivergence_eq_or :
    firstDivergence a b = (firstMismatch a b).or (firstOverhang a b) := by
  fun_induction firstDivergence a b with
  | case1 => rfl
  | case2 d b => simp [firstMismatch, firstOverhang]
  | case3 c a => simp [firstMismatch, firstOverhang]
  | case4 a c b ih => rw [ih, firstMismatch_cons_self, firstOverhang_cons, Option.map_or]
  | case5 c a d b differ => simp [firstMismatch, List.findIdx?_cons, differ]

/-! ## Verdicts on a root -/

namespace Registry

variable {r : Registry} {g : Graph} {n n' : Nat} {d : Determinism}

/-- A verdict is reached when the root can be written twice and restored, and what was
restored can be written. -/
theorem determinism_eq_ok : r.determinism g n = .ok d n' ↔
    ∃ first second third restored n₁ n₂,
      r.snapshotStep g n = .ok first n₁ ∧ r.snapshotStep g n₁ = .ok second n₂ ∧
        r.restore {} g.type first = .ok restored ∧ r.snapshotStep restored n₂ = .ok third n' ∧
        ⟨.of first second, .of first third, first⟩ = d := by
  simp only [determinism, bind_eq_ok, liftResult_eq_ok, pure_eq_ok]
  constructor
  · rintro ⟨first, n₁, write, second, n₂, rewrite, restored, _, ⟨read, rfl⟩, third, _, again,
      rfl, rfl⟩
    exact ⟨first, second, third, restored, n₁, n₂, write, rewrite, read, again, rfl⟩
  · rintro ⟨first, second, third, restored, n₁, n₂, write, rewrite, read, again, rfl⟩
    exact ⟨first, n₁, write, second, n₂, rewrite, restored, n₂, ⟨read, rfl⟩, third, n', again,
      rfl, rfl⟩

end Registry

theorem PayloadDiff.isIdentical_of {a b : Bytes} : (PayloadDiff.of a b).isIdentical ↔ a = b := by
  rw [isIdentical, Option.isNone_iff_eq_none]
  exact firstDivergence_eq_none_iff

/-- Byte strings have no divergence exactly if they are equal, and otherwise diverge at the
end of their longest common beginning.  A root is deterministic exactly if the encodings
made of it and of what was restored are all equal, and otherwise each pair that is
compared diverges where the two part. -/
theorem divergence_exact :
    (∀ a b : Bytes,
      (PayloadDiff.of a b).firstDivergence = (firstMismatch a b).or (firstOverhang a b) ∧
      ((PayloadDiff.of a b).firstDivergence = none ↔ a = b) ∧
      ∀ i, (PayloadDiff.of a b).firstDivergence = some i ↔ PartAt a b i) ∧
    ∀ (r : Registry) (g : Graph) n d n', r.determinism g n = .ok d n' →
      ∃ first second third restored n₁ n₂,
        r.snapshotStep g n = .ok first n₁ ∧ r.snapshotStep g n₁ = .ok second n₂ ∧
        r.restore {} g.type first = .ok restored ∧ r.snapshotStep restored n₂ = .ok third n' ∧
        d.payload = first ∧
        (d.isDeterministic ↔ first = second ∧ first = third) ∧
        (∀ i, d.again.firstDivergence = some i ↔ PartAt first second i) ∧
        ∀ i, d.roundTrip.firstDivergence = some i ↔ PartAt first third i := by
  refine ⟨fun a b => ⟨firstDivergence_eq_or, firstDivergence_eq_none_iff,
    fun _ => firstDivergence_eq_some_iff⟩, fun r g n d n' run => ?_⟩
  obtain ⟨first, second, third, restored, n₁, n₂, write, rewrite, read, again, rfl⟩ :=
    Registry.determinism_eq_ok.mp run
  refine ⟨first, second, third, restored, n₁, n₂, write, rewrite, read, again, rfl, ?_,
    fun _ => firstDivergence_eq_some_iff, fun _ => firstDivergence_eq_some_iff⟩
  rw [Determinism.isDeterministic, Bool.and_eq_true, PayloadDiff.isIdentical_of,
    PayloadDiff.isIdentical_of]

def lossy : Ty := .named "lossy"

def lossyRegistry : Registry where
  handlers := [.plain lossy (.int 0) .lowOctet]
  tags := []
  roots := [lossy]
  fingerprint := .ofFed []

def lossyGraph (n : Int) : Graph where
  type := lossy
  root := .int n

def lossyVerdict : Determinism where
  again := .of [2, 1, 0, 0] [2, 1, 0, 0]
  roundTrip := .of [2, 1, 0, 0] [2, 0, 0, 0]
  payload := [2, 1, 0, 0]

theorem restore_lossy : lossyRegistry.restore {} lossy [2, 1, 0, 0] = .ok (lossyGraph 2) := by
  have blank : lossyRegistry.makeBlank lossy #[] = .ok (.int 0) #[] := by
    rw [Registry.makeBlank.eq_def]
    rfl
  have read : lossyRegistry.readGraph {} lossy [2, 1, 0, 0] = .ok (.int 2)
      { input := { rest := [], position := 4, limit := ({} : WalkLimits).maxSequence } } := by
    refine Read.create_eq_ok.mpr ⟨_, _, blank, ?_⟩
    have unlike : ∀ fields, Layout.lowOctet ≠ .record fields := by simp
    rw [Read.walk, Read.valueAt_eq, Read.value_eq, Read.inPlace_eq_byLayout rfl unlike]
    rfl
  rw [Registry.restore, read]
  rfl

theorem divergence_exact_lossy :
    lossyRegistry.determinism (lossyGraph 258) 0 = .ok lossyVerdict 0 ∧
      ∃ second third, PartAt lossyVerdict.payload third 1 ∧
        (lossyVerdict.isDeterministic ↔
          lossyVerdict.payload = second ∧ lossyVerdict.payload = third) := by
  have run : lossyRegistry.determinism (lossyGraph 258) 0 = .ok lossyVerdict 0 :=
    Registry.determinism_eq_ok.mpr
      ⟨_, _, _, lossyGraph 2, 0, 0, by rfl, by rfl, restore_lossy, by rfl, rfl⟩
  obtain ⟨first, second, third, _, _, _, _, _, _, _, rfl, verdict, _, parts⟩ :=
    divergence_exact.2 lossyRegistry (lossyGraph 258) 0 lossyVerdict 0 run
  exact ⟨run, second, third, (parts 1).mp rfl, verdict⟩

end Chronicle
