import Chronicle.Codec.Field
import Chronicle.Proofs.Success

/-!
# What a read consumes and what a write adds

A read that succeeds consumes exactly the octets that the write of the same
field adds, and it succeeds on every input that starts with them.  Both
directions are one equivalence for each field, so the laws of larger formats
are put together from them.
-/

namespace Chronicle

open Success

/-! ## Consumption -/

/-- The reader goes over `bs` and stands behind it. -/
structure ByteReader.Passes (r : ByteReader) (bs : Bytes) (r' : ByteReader) : Prop where
  rest_eq : r.rest = bs ++ r'.rest
  position_eq : r'.position = r.position + bs.length
  limit_eq : r'.limit = r.limit

namespace ByteReader

def skip (r : ByteReader) (n : Nat) : ByteReader :=
  { r with rest := r.rest.drop n, position := r.position + n }

variable {r r' r'' : ByteReader} {bs cs : Bytes}

theorem Passes.refl (r : ByteReader) : r.Passes [] r := by
  constructor <;> simp

theorem Passes.trans (first : r.Passes bs r') (second : r'.Passes cs r'') :
    r.Passes (bs ++ cs) r'' where
  rest_eq := by rw [first.rest_eq, second.rest_eq, List.append_assoc]
  position_eq := by
    rw [second.position_eq, first.position_eq, List.length_append, Nat.add_assoc]
  limit_eq := second.limit_eq.trans first.limit_eq

theorem passes_nil : r.Passes [] r' ↔ r = r' := by
  constructor
  · intro h
    rcases r with ⟨rest, position, limit⟩
    rcases r' with ⟨rest', position', limit'⟩
    obtain ⟨rest_eq, position_eq, limit_eq⟩ := h
    simp only [List.nil_append, List.length_nil, Nat.add_zero] at rest_eq position_eq limit_eq
    rw [rest_eq, position_eq, limit_eq]
  · rintro rfl
    exact .refl r

theorem passes_skip (h : r.rest = bs ++ cs) : r.Passes bs (r.skip bs.length) where
  rest_eq := by simp [skip, h]
  position_eq := rfl
  limit_eq := rfl

theorem Passes.eq_skip (h : r.Passes bs r') : r' = r.skip bs.length := by
  rcases r' with ⟨rest, position, limit⟩
  obtain ⟨rest_eq, position_eq, limit_eq⟩ := h
  simp only at rest_eq position_eq limit_eq
  simp [skip, rest_eq, position_eq, limit_eq]

theorem Passes.length_eq (h : r.Passes bs r') :
    r.rest.length = bs.length + r'.rest.length := by
  rw [h.rest_eq, List.length_append]

theorem passes_append :
    r.Passes (bs ++ cs) r'' ↔ ∃ r', r.Passes bs r' ∧ r'.Passes cs r'' := by
  constructor
  · intro h
    have start : r.rest = bs ++ (cs ++ r''.rest) := by
      rw [h.rest_eq, List.append_assoc]
    refine ⟨r.skip bs.length, passes_skip start, ?_, ?_, ?_⟩
    · simp [skip, start]
    · simp [skip, h.position_eq, Nat.add_assoc]
    · exact h.limit_eq
  · rintro ⟨r', first, second⟩
    exact first.trans second

def RunsOut (r : ByteReader) (n : Nat) (e : WalkError) (r' : ByteReader) : Prop :=
  r.remaining < n ∧ e = .unexpectedEnd n r.remaining ∧ r' = r

end ByteReader

/-! ## Reads -/

namespace Reading

variable {r r' : ByteReader}

theorem raw_eq_ok {n : Nat} {bs : Bytes} :
    raw n r = .ok bs r' ↔ bs.length = n ∧ r.Passes bs r' := by
  simp only [raw, bind_eq_ok, get_eq_ok]
  constructor
  · rintro ⟨_, _, ⟨rfl, rfl⟩, run⟩
    cases found : splitExact? n r.rest with
    | none => simp [found, throw_eq_ok] at run
    | some parts =>
        obtain ⟨front, rest⟩ := parts
        obtain ⟨start, width⟩ := splitExact?_eq_some found
        simp only [found, bind_eq_ok, set_eq_ok, pure_eq_ok] at run
        obtain ⟨_, _, rfl, rfl, rfl⟩ := run
        exact ⟨width, start, by rw [width], rfl⟩
  · rintro ⟨rfl, h⟩
    refine ⟨r, r, ⟨rfl, rfl⟩, ?_⟩
    rw [h.rest_eq, splitExact?_append]
    refine bind_eq_ok.mpr ⟨(), r', set_eq_ok.mpr ?_, pure_eq_ok.mpr ⟨rfl, rfl⟩⟩
    rw [h.eq_skip, ByteReader.skip, h.rest_eq, List.drop_left]

theorem raw_eq_error {n : Nat} {e : WalkError} : raw n r = .error e r' ↔ r.RunsOut n e r' := by
  have cut : splitExact? n r.rest = none ↔ r.remaining < n := splitExact?_eq_none
  rw [raw, get_bind, ByteReader.RunsOut]
  cases found : splitExact? n r.rest with
  | none => simp [cut.mp found, throw_eq_error, eq_comm]
  | some parts =>
      have enough : ¬ r.remaining < n := fun short => by simp [cut.mpr short] at found
      simp only [enough, false_and, iff_false]
      intro run
      cases run

theorem scalar_eq_ok {s : Scalar} {n : Int} :
    scalar s r = .ok n r' ↔ s.Holds n ∧ r.Passes (s.encode n) r' := by
  simp only [scalar, bind_eq_ok, raw_eq_ok, pure_eq_ok]
  constructor
  · rintro ⟨bs, _, ⟨width, h⟩, rfl, rfl⟩
    rw [Scalar.encode_decode width]
    exact ⟨Scalar.holds_decode width, h⟩
  · rintro ⟨holds, h⟩
    exact ⟨s.encode n, r', ⟨Scalar.length_encode s n, h⟩, Scalar.decode_encode holds, rfl⟩

theorem word_eq_ok {n : Nat} :
    word r = .ok n r' ↔ n < leBound 4 ∧ r.Passes (leBytes 4 n) r' := by
  simp only [word, bind_eq_ok, raw_eq_ok, pure_eq_ok]
  constructor
  · rintro ⟨bs, _, ⟨width, h⟩, rfl, rfl⟩
    have small := ofLeBytes_lt bs
    have same := leBytes_ofLeBytes bs
    rw [width] at small same
    rw [same]
    exact ⟨small, h⟩
  · rintro ⟨small, h⟩
    refine ⟨leBytes 4 n, r', ⟨length_leBytes 4 n, h⟩, ?_, rfl⟩
    rw [ofLeBytes_leBytes, Nat.mod_eq_of_lt small]

theorem octet_eq_ok {b : UInt8} : octet r = .ok b r' ↔ r.Passes [b] r' := by
  simp only [octet, bind_eq_ok, raw_eq_ok]
  constructor
  · rintro ⟨bs, u, ⟨width, h⟩, run⟩
    obtain ⟨c, rfl⟩ := List.length_eq_one_iff.mp width
    obtain ⟨rfl, rfl⟩ := pure_eq_ok.mp run
    exact h
  · intro h
    exact ⟨[b], r', ⟨rfl, h⟩, pure_eq_ok.mpr ⟨rfl, rfl⟩⟩

theorem bool_eq_ok {b : Bool} :
    bool r = .ok b r' ↔ r.Passes [if b then 1 else 0] r' := by
  simp only [bool, bind_eq_ok, octet_eq_ok]
  constructor
  · rintro ⟨c, u, h, run⟩
    by_cases zero : c = 0
    · subst zero
      obtain ⟨rfl, rfl⟩ := pure_eq_ok.mp run
      exact h
    · by_cases one : c = 1
      · subst one
        obtain ⟨rfl, rfl⟩ := pure_eq_ok.mp run
        exact h
      · simp [zero, one, throw_eq_ok] at run
  · intro h
    refine ⟨_, r', h, ?_⟩
    cases b <;> exact pure_eq_ok.mpr ⟨rfl, rfl⟩

theorem length_eq_ok {n : Nat} :
    length r = .ok n r' ↔ n ≤ r.limit ∧ n < leBound 4 ∧ r.Passes (leBytes 4 n) r' := by
  simp only [length, bind_eq_ok, word_eq_ok, get_eq_ok]
  constructor
  · rintro ⟨m, u, ⟨small, h⟩, _, _, ⟨rfl, rfl⟩, run⟩
    by_cases above : u.limit < m
    · simp [above, throw_eq_ok] at run
    · rw [if_neg above] at run
      obtain ⟨rfl, rfl⟩ := pure_eq_ok.mp run
      exact ⟨by rw [← h.limit_eq]; exact Nat.le_of_not_lt above, small, h⟩
  · rintro ⟨within, small, h⟩
    refine ⟨n, r', ⟨small, h⟩, r', r', ⟨rfl, rfl⟩, ?_⟩
    rw [if_neg (by rw [h.limit_eq]; omega)]
    exact pure_eq_ok.mpr ⟨rfl, rfl⟩

theorem sized_eq_ok {bs : Bytes} :
    sized r = .ok bs r' ↔ bs.length ≤ r.limit ∧ bs.length < leBound 4 ∧
      r.Passes (leBytes 4 bs.length ++ bs) r' := by
  simp only [sized, bind_eq_ok, length_eq_ok, raw_eq_ok, ByteReader.passes_append]
  constructor
  · rintro ⟨n, u, ⟨within, small, first⟩, rfl, second⟩
    exact ⟨within, small, u, first, second⟩
  · rintro ⟨within, small, u, first, second⟩
    exact ⟨bs.length, u, ⟨within, small, first⟩, rfl, second⟩

theorem text_eq_ok {s : String} :
    text r = .ok s r' ↔ (Utf8.encode s).length ≤ r.limit ∧
      (Utf8.encode s).length < leBound 4 ∧
      r.Passes (leBytes 4 (Utf8.encode s).length ++ Utf8.encode s) r' := by
  simp only [text, bind_eq_ok, sized_eq_ok]
  constructor
  · rintro ⟨bs, u, h, run⟩
    cases decoded : Utf8.decode? bs with
    | none => simp [decoded, throw_eq_ok] at run
    | some t =>
        simp only [decoded] at run
        obtain ⟨rfl, rfl⟩ := pure_eq_ok.mp run
        rw [Utf8.encode_of_decode? decoded]
        exact h
  · intro h
    refine ⟨Utf8.encode s, r', h, ?_⟩
    rw [Utf8.decode?_encode]
    exact pure_eq_ok.mpr ⟨rfl, rfl⟩

end Reading

/-! ## Writes -/

namespace ByteWriter

def append (w : ByteWriter) (bs : Bytes) : ByteWriter :=
  { w with bytes := w.bytes ++ bs }

@[simp] theorem append_nil (w : ByteWriter) : w.append [] = w := by
  simp [append]

@[simp] theorem append_append (w : ByteWriter) (bs cs : Bytes) :
    (w.append bs).append cs = w.append (bs ++ cs) := by
  have same : w.bytes ++ bs ++ cs = w.bytes ++ (bs ++ cs) := by
    apply Array.toList_inj.mp
    simp
  simp [append, same]

@[simp] theorem limit_append (w : ByteWriter) (bs : Bytes) :
    (w.append bs).limit = w.limit := rfl

@[simp] theorem toBytes_append (w : ByteWriter) (bs : Bytes) :
    (w.append bs).toBytes = w.toBytes ++ bs := by
  simp [append, toBytes]

end ByteWriter

namespace Writing

variable {w w' : ByteWriter}

theorem raw_eq_ok {bs : Bytes} {u : Unit} : raw bs w = .ok u w' ↔ w' = w.append bs := by
  simp only [raw, modify_eq_ok]
  exact eq_comm

theorem encode_u32 {n : Nat} (small : n < leBound 4) :
    Scalar.u32.encode n = leBytes 4 n := by
  have same : ((n : Int) % (Scalar.u32.modulus : Nat)).toNat = n := by
    change n < 4294967296 at small
    change ((n : Int) % (4294967296 : Nat)).toNat = n
    omega
  rw [Scalar.encode, same]
  rfl

theorem length_eq_ok {n : Nat} {u : Unit} (narrow : w.limit ≤ maxPrefix) :
    length n w = .ok u w' ↔ n ≤ w.limit ∧ w' = w.append (leBytes 4 n) := by
  simp only [length, bind_eq_ok, get_eq_ok]
  constructor
  · rintro ⟨_, _, ⟨rfl, rfl⟩, run⟩
    by_cases above : w.limit < n
    · simp [above, throw_eq_ok] at run
    · rw [if_neg above, scalar, raw_eq_ok] at run
      have small : n < leBound 4 := by
        simp only [maxPrefix, leBound] at narrow ⊢
        omega
      rw [encode_u32 small] at run
      exact ⟨Nat.le_of_not_lt above, run⟩
  · rintro ⟨within, rfl⟩
    have small : n < leBound 4 := by
      simp only [maxPrefix, leBound] at narrow ⊢
      omega
    refine ⟨w, w, ⟨rfl, rfl⟩, ?_⟩
    rw [if_neg (Nat.not_lt.mpr within), scalar, raw_eq_ok, encode_u32 small]

theorem sized_eq_ok {bs : Bytes} {u : Unit} (narrow : w.limit ≤ maxPrefix) :
    sized bs w = .ok u w' ↔
      bs.length ≤ w.limit ∧ w' = w.append (leBytes 4 bs.length ++ bs) := by
  simp only [sized, bind_eq_ok, length_eq_ok narrow, raw_eq_ok]
  constructor
  · rintro ⟨_, u, ⟨within, rfl⟩, rfl⟩
    exact ⟨within, ByteWriter.append_append _ _ _⟩
  · rintro ⟨within, rfl⟩
    exact ⟨(), _, ⟨within, rfl⟩, (ByteWriter.append_append _ _ _).symm⟩

end Writing

end Chronicle
