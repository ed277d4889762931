import Chronicle.Loop.Reader
import Chronicle.Proofs.Success
import Mathlib.Data.List.TakeWhile

/-!
# Fields of a record

Each field ends by itself: its width is known, stated in front of it, or marked
by the first zero octet.  A field is read exactly when its written form comes
next, and a source that ends inside the written form is reported as such.
-/

namespace Chronicle.Loop

open Success

/-! ## Sources -/

namespace Source

variable {s s' : Source} {bs : Bytes} {n : Nat}

structure Plain (s : Source) : Prop where
  later_eq : s.later = []
  fails_eq : s.fails = false

theorem exhaust_ne_complete (s : Source) : s.exhaust.1 ≠ .complete := by
  unfold exhaust
  cases s.later with
  | nil => cases s.fails <;> simp
  | cons next later => simp

theorem exhaust_of_plain (plain : s.Plain) : s.exhaust = (.ended, { s with run := [] }) := by
  rw [exhaust, plain.later_eq, plain.fails_eq]
  rfl

theorem take_eq_complete : s.take n = (.complete, bs, s') ↔
    bs.length = n ∧ s.run = bs ++ s'.run ∧ s' = { s with run := s'.run } := by
  unfold take
  cases found : splitExact? n s.run with
  | none =>
      have short := splitExact?_eq_none.mp found
      have never := exhaust_ne_complete s
      constructor
      · intro same
        injection same with ended
        exact absurd ended never
      · rintro ⟨rfl, start, _⟩
        rw [start, List.length_append] at short
        omega
  | some parts =>
      obtain ⟨start, width⟩ := splitExact?_eq_some found
      constructor
      · intro same
        obtain ⟨rfl, rfl⟩ : parts.1 = bs ∧ { s with run := parts.2 } = s' := by
          simpa using same
        exact ⟨width, start, rfl⟩
      · rintro ⟨rfl, start', same⟩
        rw [start', splitExact?_append] at found
        obtain rfl := Option.some.inj found
        rw [same]

theorem take_of_short (plain : s.Plain) (short : s.run.length < n) :
    s.take n = (.ended, s.run, { s with run := [] }) := by
  rw [take, splitExact?_eq_none.mpr short, exhaust_of_plain plain]

variable {stop : UInt8} {limit : Nat}

theorem takeThrough_of_stop {rest : Bytes} (start : s.run = bs ++ stop :: rest)
    (first : stop ∉ bs) (within : bs.length < limit) :
    s.takeThrough stop limit = (.complete, bs ++ [stop], { s with run := rest }) := by
  obtain ⟨more, rfl⟩ : ∃ more, limit = bs.length + (more + 1) :=
    ⟨limit - bs.length - 1, by omega⟩
  have window : s.run.take (bs.length + (more + 1)) = bs ++ stop :: rest.take more := by
    rw [start, List.take_length_add_append, List.take_succ_cons]
  have front : (s.run.take (bs.length + (more + 1))).takeWhile (· != stop) = bs := by
    rw [window, List.takeWhile_append_of_pos, List.takeWhile_cons_of_neg (by simp),
      List.append_nil]
    intro b member
    simpa using fun same : b = stop => first (same ▸ member)
  have shorter : bs.length < (s.run.take (bs.length + (more + 1))).length := by
    rw [window, List.length_append, List.length_cons]
    omega
  have behind : s.run.drop (bs.length + 1) = rest := by
    rw [start, List.drop_length_add_append, List.drop_one, List.tail_cons]
  simp only [takeThrough, front, behind]
  rw [if_pos shorter]

theorem exists_stop (stopped : stop ∈ s.run.take limit) :
    ∃ front rest, s.run = front ++ stop :: rest ∧ stop ∉ front ∧ front.length < limit := by
  obtain ⟨front, rest, window, first⟩ := List.eq_append_cons_of_mem stopped
  refine ⟨front, rest ++ s.run.drop limit, ?_, first, ?_⟩
  · rw [← List.cons_append, ← List.append_assoc, ← window, List.take_append_drop]
  · have := congrArg List.length window
    rw [List.length_take, List.length_append, List.length_cons] at this
    omega

theorem takeThrough_of_not_mem (none : stop ∉ s.run.take limit) :
    s.takeThrough stop limit = if (s.run.take limit).length = limit
      then (.complete, s.run.take limit, { s with run := s.run.drop limit })
      else (s.exhaust.1, s.run, s.exhaust.2) := by
  have front : (s.run.take limit).takeWhile (· != stop) = s.run.take limit := by
    refine List.takeWhile_eq_self_iff.mpr fun b member => ?_
    simpa using fun same : b = stop => none (same ▸ member)
  simp only [takeThrough, front, Nat.lt_irrefl, ↓reduceIte]

end Source

/-! ## Going over octets -/

namespace Reader

def behind (r : Reader) (n : Nat) : Reader :=
  { r with source := { r.source with run := r.source.run.drop n }, offset := r.offset + n }

structure Passes (r : Reader) (bs : Bytes) (r' : Reader) : Prop where
  run_eq : r.source.run = bs ++ r'.source.run
  eq_behind : r' = r.behind bs.length

/-- The source ends before all of `bs` was delivered. -/
structure Cut (r : Reader) (bs : Bytes) : Prop where
  plain : r.source.Plain
  short : ∃ missing, missing ≠ [] ∧ bs = r.source.run ++ missing

variable {r r' r'' : Reader} {bs cs : Bytes}

theorem passes_behind (start : r.source.run = bs ++ cs) : r.Passes bs (r.behind bs.length) := by
  refine ⟨?_, rfl⟩
  simp [behind, start]

theorem Passes.limits_eq (h : r.Passes bs r') : r'.limits = r.limits := by
  rw [h.eq_behind]
  rfl

theorem Passes.plain (h : r.Passes bs r') (plain : r.source.Plain) : r'.source.Plain := by
  rw [h.eq_behind]
  exact ⟨plain.later_eq, plain.fails_eq⟩

theorem passes_append : r.Passes (bs ++ cs) r'' ↔ ∃ r', r.Passes bs r' ∧ r'.Passes cs r'' := by
  constructor
  · intro h
    have start : r.source.run = bs ++ (cs ++ r''.source.run) := by
      rw [h.run_eq, List.append_assoc]
    refine ⟨r.behind bs.length, passes_behind start, ?_, ?_⟩
    · simp [behind, start]
    · rw [h.eq_behind]
      simp [behind, List.drop_drop, Nat.add_assoc]
  · rintro ⟨r', first, second⟩
    constructor
    · rw [first.run_eq, second.run_eq, List.append_assoc]
    · rw [second.eq_behind, first.eq_behind]
      simp [behind, List.drop_drop, Nat.add_assoc]

theorem Cut.length_lt (cut : r.Cut bs) : r.source.run.length < bs.length := by
  obtain ⟨missing, some, rfl⟩ := cut.short
  have := List.length_pos_iff.mpr some
  rw [List.length_append]
  omega

theorem Cut.append (cut : r.Cut (bs ++ cs)) : r.Cut bs ∨ ∃ r', r.Passes bs r' ∧ r'.Cut cs := by
  obtain ⟨missing, some, all⟩ := cut.short
  have second : ∀ more, r.source.run = bs ++ more → cs = more ++ missing →
      ∃ r', r.Passes bs r' ∧ r'.Cut cs := by
    intro more start rest
    have passed := passes_behind start
    refine ⟨_, passed, passed.plain cut.plain, missing, some, ?_⟩
    simp [behind, start, rest]
  rcases List.append_eq_append_iff.mp all with ⟨more, start, rest⟩ | ⟨less, rfl, rfl⟩
  · exact .inr (second more start rest)
  · by_cases all : less = []
    · subst all
      rw [List.append_nil] at second ⊢
      exact .inr (second [] (List.append_nil _).symm rfl)
    · exact .inl ⟨cut.plain, less, all, rfl⟩

/-! ## Fields -/

theorem field_eq (name : String) (width : Nat) (r : Reader) : field name width r =
    match r.source.take width with
    | (.complete, bs, source) => .ok bs { r with source, offset := r.offset + width }
    | (.ended, _, source) => .error (.truncated name r.offset) { r with source }
    | (.failed, _, source) => .error .io { r with source } := by
  rw [field, get_bind]
  rcases r.source.take width with ⟨supply, bs, source⟩
  cases supply <;> rfl

theorem commentOctets_of_overflow (wide : leBound 8 ≤ commentWindow r.limits) :
    commentOctets r = .error .windowOverflow r := by
  rw [commentOctets, get_bind]
  simp only [wide, ↓reduceIte]
  rfl

theorem commentOctets_eq (narrow : commentWindow r.limits < leBound 8) : commentOctets r =
    match r.source.takeThrough terminator (commentWindow r.limits) with
    | (.failed, _, source) => .error .io { r with source }
    | (_, bs, source) =>
        if bs.getLast? = some terminator then
          .ok bs.dropLast { r with source, offset := r.offset + bs.length }
        else if commentWindow r.limits ≤ bs.length then
          .error (.commentTooLong r.limits.maxComment)
            { r with source, offset := r.offset + bs.length }
        else
          .error (.truncated "comment" (r.offset + bs.length))
            { r with source, offset := r.offset + bs.length } := by
  rw [commentOctets, get_bind]
  simp only [Nat.not_le.mpr narrow, ↓reduceIte]
  rcases r.source.takeThrough terminator (commentWindow r.limits) with ⟨supply, bs, source⟩
  cases supply with
  | failed => rfl
  | _ =>
      by_cases stopped : bs.getLast? = some terminator
      · simp only [stopped, ↓reduceIte]
        rfl
      · by_cases full : commentWindow r.limits ≤ bs.length
        · simp only [stopped, full, ↓reduceIte]
          rfl
        · simp only [stopped, full, ↓reduceIte]
          rfl

theorem payload_eq (length : Nat) (r : Reader) : payload length r =
    match r.source.take length with
    | (.failed, _, source) => .error .io { r with source }
    | (.ended, bs, source) => .error (.truncated "payload" (r.offset + bs.length))
        { r with source, offset := r.offset + bs.length }
    | (.complete, bs, source) => .ok bs { r with source, offset := r.offset + bs.length } := by
  rw [payload, get_bind]
  rcases r.source.take length with ⟨supply, bs, source⟩
  cases supply <;> rfl

/-! ## When a field is read -/

theorem passes_iff_take {n : Nat} : (bs.length = n ∧ r.Passes bs r') ↔
    r.source.take n = (.complete, bs, r'.source) ∧
      r' = { r with source := r'.source, offset := r.offset + bs.length } := by
  rw [Source.take_eq_complete]
  constructor
  · rintro ⟨width, passes⟩
    have run := passes.run_eq
    rw [passes.eq_behind] at run ⊢
    exact ⟨⟨width, run, rfl⟩, rfl⟩
  · rintro ⟨⟨width, start, same⟩, moved⟩
    refine ⟨width, start, ?_⟩
    rw [moved, behind, same, start, List.drop_left]

theorem field_eq_ok {name : String} {width : Nat} :
    field name width r = .ok bs r' ↔ bs.length = width ∧ r.Passes bs r' := by
  rw [field_eq, passes_iff_take]
  rcases found : r.source.take width with ⟨supply, cs, source⟩
  cases supply with
  | complete =>
      obtain ⟨rfl, -, -⟩ := Source.take_eq_complete.mp found
      constructor
      · rintro ⟨⟩
        exact ⟨rfl, rfl⟩
      · rintro ⟨⟨⟩, moved⟩
        rw [moved]
  | _ => simp

theorem payload_eq_ok {length : Nat} :
    payload length r = .ok bs r' ↔ bs.length = length ∧ r.Passes bs r' := by
  rw [payload_eq, passes_iff_take]
  rcases r.source.take length with ⟨supply, cs, source⟩
  cases supply with
  | complete =>
      constructor
      · rintro ⟨⟩
        exact ⟨rfl, rfl⟩
      · rintro ⟨⟨⟩, moved⟩
        rw [moved]
  | _ => simp

theorem commentOctets_eq_ok : commentOctets r = .ok bs r' ↔
    (commentWindow r.limits < leBound 8 ∧ terminator ∉ bs ∧
      bs.length < commentWindow r.limits) ∧ r.Passes (bs ++ [terminator]) r' := by
  by_cases narrow : commentWindow r.limits < leBound 8
  case neg => simp [commentOctets_of_overflow (Nat.not_lt.mp narrow), narrow]
  simp only [commentOctets_eq narrow, narrow, true_and]
  constructor
  · by_cases stopped : terminator ∈ r.source.run.take (commentWindow r.limits)
    · obtain ⟨front, rest, start, first, within⟩ := Source.exists_stop stopped
      rw [Source.takeThrough_of_stop start first within]
      simp only [List.getLast?_concat, ↓reduceIte, List.dropLast_concat]
      rintro ⟨⟩
      exact ⟨⟨first, within⟩, by simp [start], by simp [behind, start]⟩
    · have absent : (r.source.run.take (commentWindow r.limits)).getLast? ≠ some terminator :=
        fun last => stopped (List.mem_of_getLast? last)
      rw [Source.takeThrough_of_not_mem stopped]
      by_cases full : (r.source.run.take (commentWindow r.limits)).length = commentWindow r.limits
      · rw [if_pos full]
        simp [absent, full]
      · rw [List.length_take] at full
        have short : r.source.run.length < commentWindow r.limits := by omega
        have all : r.source.run.take (commentWindow r.limits) = r.source.run :=
          List.take_of_length_le (Nat.le_of_lt short)
        rw [all] at absent ⊢
        rw [if_neg (Nat.ne_of_lt short)]
        rcases r.source.exhaust with ⟨supply, source⟩
        cases supply <;> simp [absent, Nat.not_le.mpr short]
  · rintro ⟨⟨first, within⟩, passes⟩
    have start : r.source.run = bs ++ terminator :: r'.source.run := by
      rw [passes.run_eq, List.append_assoc]
      rfl
    rw [Source.takeThrough_of_stop start first within]
    simp only [List.getLast?_concat, ↓reduceIte, List.dropLast_concat]
    rw [passes.eq_behind]
    simp [behind, start]

theorem comment_eq_ok {text : String} : comment r = .ok text r' ↔
    (commentWindow r.limits < leBound 8 ∧ terminator ∉ Utf8.encode text ∧
      (Utf8.encode text).length + 1 < commentWindow r.limits) ∧
      r.Passes (Utf8.encode text ++ [separator, terminator]) r' := by
  have spaced : ∀ front : Bytes, front ++ [separator, terminator] =
      front ++ [separator] ++ [terminator] := fun front => by rw [List.append_assoc]; rfl
  simp only [comment, bind_eq_ok, commentOctets_eq_ok]
  constructor
  · rintro ⟨bs, u, ⟨⟨narrow, first, within⟩, passes⟩, run⟩
    cases last : bs.getLast? with
    | none => simp [last, throw_eq_ok] at run
    | some octet =>
        obtain ⟨front, rfl⟩ := List.getLast?_eq_some_iff.mp last
        by_cases space : octet = separator
        · subst space
          simp only [last, ↓reduceIte, List.dropLast_concat] at run
          rw [List.mem_append, not_or] at first
          rw [List.length_append, List.length_singleton] at within
          cases decoded : Utf8.decode? front with
          | none => simp [decoded, throw_eq_ok] at run
          | some text' =>
              simp only [decoded] at run
              obtain ⟨rfl, rfl⟩ := pure_eq_ok.mp run
              rw [Utf8.encode_of_decode? decoded, spaced]
              exact ⟨⟨narrow, first.1, within⟩, passes⟩
        · simp [last, space, throw_eq_ok] at run
  · rintro ⟨⟨narrow, first, within⟩, passes⟩
    rw [spaced] at passes
    refine ⟨Utf8.encode text ++ [separator], r', ⟨⟨narrow, ?_, ?_⟩, passes⟩, ?_⟩
    · rw [List.mem_append, not_or]
      exact ⟨first, by decide⟩
    · rw [List.length_append, List.length_singleton]
      exact within
    · simp only [List.getLast?_concat, ↓reduceIte, List.dropLast_concat, Utf8.decode?_encode]
      exact pure_eq_ok.mpr ⟨rfl, rfl⟩

theorem encode_i32 {n : Nat} (small : n ≤ maxPayloadField) :
    Scalar.i32.encode n = leBytes 4 n ∧ Scalar.i32.Holds n := by
  have below : n < leBound 4 := Nat.lt_of_le_of_lt small (by decide)
  constructor
  · have same : ((n : Int) % (Scalar.i32.modulus : Int)).toNat = n % leBound 4 := by
      rw [← Int.natCast_emod, Int.toNat_natCast]
      rfl
    rw [Scalar.encode, same, Nat.mod_eq_of_lt below]
    rfl
  · simp only [Scalar.Holds, Scalar.signed, Scalar.modulus, Scalar.width, leBound, ↓reduceIte]
    rw [maxPayloadField] at small
    omega

theorem payloadLength_eq_ok {n : Nat} : payloadLength r = .ok n r' ↔
    n ≤ payloadLimit r.limits ∧ r.Passes (leBytes 4 n) r' := by
  simp only [payloadLength, bind_eq_ok, field_eq_ok, get_eq_ok]
  constructor
  · rintro ⟨bs, u, ⟨width, passes⟩, _, _, ⟨rfl, rfl⟩, run⟩
    by_cases negative : Scalar.i32.decode bs < 0
    · simp [negative, throw_eq_ok] at run
    · by_cases large : payloadLimit u.limits < (Scalar.i32.decode bs).toNat
      · simp [negative, large, throw_eq_ok] at run
      · simp only [negative, large, ↓reduceIte] at run
        obtain ⟨rfl, rfl⟩ := pure_eq_ok.mp run
        have small : (Scalar.i32.decode bs).toNat ≤ maxPayloadField :=
          Nat.le_trans (Nat.not_lt.mp large) (Nat.min_le_right _ _)
        have same : leBytes 4 (Scalar.i32.decode bs).toNat = bs := by
          rw [← (encode_i32 small).1, Int.toNat_of_nonneg (Int.not_lt.mp negative)]
          exact Scalar.encode_decode width
        rw [same, ← passes.limits_eq]
        exact ⟨Nat.not_lt.mp large, passes⟩
  · rintro ⟨within, passes⟩
    have small : n ≤ maxPayloadField := Nat.le_trans within (Nat.min_le_right _ _)
    have decoded : Scalar.i32.decode (leBytes 4 n) = n := by
      rw [← (encode_i32 small).1]
      exact Scalar.decode_encode (encode_i32 small).2
    refine ⟨leBytes 4 n, r', ⟨length_leBytes 4 n, passes⟩, r', r', ⟨rfl, rfl⟩, ?_⟩
    rw [decoded, passes.limits_eq, if_neg (Int.not_lt.mpr (Int.natCast_nonneg n)),
      Int.toNat_natCast, if_neg (Nat.not_lt.mpr within)]
    exact pure_eq_ok.mpr ⟨rfl, rfl⟩

/-! ## When a source ends inside a field -/

def Truncated {α : Type} (result : EStateM.Result LoopError Reader α) : Prop :=
  ∃ name offset r, result = .error (.truncated name offset) r

theorem Truncated.bind {α β : Type} {act : RecordReading α} (cut : Truncated (act r))
    (next : α → RecordReading β) : Truncated ((act >>= next) r) := by
  obtain ⟨name, offset, r', run⟩ := cut
  exact ⟨name, offset, r', bind_of_error run next⟩

theorem Cut.truncates_bind {α β : Type} {act : RecordReading α} {next : α → RecordReading β}
    (a : α) (cut : r.Cut (bs ++ cs)) (first : r.Cut bs → Truncated (act r))
    (whole : ∀ r', r.Passes bs r' → act r = .ok a r')
    (second : ∀ r', r.Passes bs r' → r'.Cut cs → Truncated (next a r')) :
    Truncated ((act >>= next) r) := by
  rcases cut.append with early | ⟨r', passes, late⟩
  · exact (first early).bind next
  · rw [bind_of_ok (whole r' passes)]
    exact second r' passes late

theorem Cut.truncates_field (cut : r.Cut bs) (name : String) :
    Truncated (field name bs.length r) := by
  rw [field_eq, Source.take_of_short cut.plain cut.length_lt]
  exact ⟨_, _, _, rfl⟩

theorem Cut.truncates_payload (cut : r.Cut bs) : Truncated (payload bs.length r) := by
  rw [payload_eq, Source.take_of_short cut.plain cut.length_lt]
  exact ⟨_, _, _, rfl⟩

theorem Cut.truncates_payloadLength {n : Nat} (cut : r.Cut (leBytes 4 n)) :
    Truncated (payloadLength r) := by
  have inner := cut.truncates_field "payload length"
  rw [length_leBytes] at inner
  exact inner.bind _

theorem Cut.truncates_comment {text : String} (narrow : commentWindow r.limits < leBound 8)
    (clean : terminator ∉ Utf8.encode text)
    (short : (Utf8.encode text).length + 1 < commentWindow r.limits)
    (cut : r.Cut (Utf8.encode text ++ [separator, terminator])) : Truncated (comment r) := by
  have brief : r.source.run.length < commentWindow r.limits := by
    have := cut.length_lt
    rw [List.length_append, List.length_cons, List.length_singleton] at this
    omega
  have all : r.source.run.take (commentWindow r.limits) = r.source.run :=
    List.take_of_length_le (Nat.le_of_lt brief)
  have absent : terminator ∉ r.source.run := by
    obtain ⟨missing, some, whole⟩ := cut.short
    rcases List.eq_nil_or_concat missing with none | ⟨more, last, rfl⟩
    · exact absurd none some
    · have split : Utf8.encode text ++ [separator] ++ [terminator] =
          r.source.run ++ more ++ [last] := by simpa using whole
      obtain ⟨front, -⟩ := List.append_inj' split rfl
      intro member
      have inside : terminator ∈ Utf8.encode text ++ [separator] := by
        rw [front]
        exact List.mem_append_left _ member
      rcases List.mem_append.mp inside with early | space
      · exact clean early
      · exact absurd (List.mem_singleton.mp space) (by decide)
  have unstopped : r.source.run.getLast? ≠ some terminator :=
    fun last => absent (List.mem_of_getLast? last)
  refine Truncated.bind ?_ _
  rw [commentOctets_eq narrow, Source.takeThrough_of_not_mem (by rw [all]; exact absent), all,
    if_neg (Nat.ne_of_lt brief), Source.exhaust_of_plain cut.plain]
  simp only [unstopped, Nat.not_le.mpr brief, ↓reduceIte]
  exact ⟨_, _, _, rfl⟩

end Reader

end Chronicle.Loop
