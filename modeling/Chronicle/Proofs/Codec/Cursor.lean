import Chronicle.Proofs.Walk.Laws

/-!
# Where a read leaves the cursor

A read that fails has passed the octets it had taken by then.  So the cursor stays
only if the input ended before the part of the field that every read of its kind takes
first; behind that part a refused tag, a length above the limit, a content cut short
and octets that are no text all leave the cursor further on.  It never leaves the input.
-/

namespace Chronicle

open Success

/-! ## How a read of one field fails -/

namespace ByteReader

theorem Passes.remaining_eq {r r' : ByteReader} {bs : Bytes} (h : r.Passes bs r') :
    r.remaining = bs.length + r'.remaining := h.length_eq

end ByteReader

namespace Reading

variable {r r' : ByteReader} {e : WalkError}

theorem mapped_eq_error {α β : Type} {act : Reading α} {g : α → β} :
    (do return g (← act) : Reading β) r = .error e r' ↔ act r = .error e r' := by
  rw [bind_eq_error, or_iff_left]
  rintro ⟨_, _, _, failed⟩
  exact pure_eq_error.mp failed

theorem scalar_eq_error {s : Scalar} : scalar s r = .error e r' ↔ r.RunsOut s.width e r' :=
  mapped_eq_error.trans raw_eq_error

theorem word_eq_error : word r = .error e r' ↔ r.RunsOut 4 e r' :=
  mapped_eq_error.trans raw_eq_error

theorem octet_eq_error : octet r = .error e r' ↔ r.RunsOut 1 e r' := by
  rw [octet, bind_eq_error, raw_eq_error, or_iff_left]
  rintro ⟨bs, u, run, failed⟩
  obtain ⟨b, rfl⟩ := List.length_eq_one_iff.mp (raw_eq_ok.mp run).1
  exact pure_eq_error.mp failed

theorem bool_eq_error : bool r = .error e r' ↔
    r.RunsOut 1 e r' ∨ ∃ b, b ≠ 0 ∧ b ≠ 1 ∧ e = .invalidTag "bool" b ∧ r.Passes [b] r' := by
  rw [bool, bind_eq_error, octet_eq_error]
  refine or_congr_right ⟨?_, ?_⟩
  · rintro ⟨b, u, run, failed⟩
    split at failed
    · exact (pure_eq_error.mp failed).elim
    · split at failed
      · exact (pure_eq_error.mp failed).elim
      · obtain ⟨rfl, rfl⟩ := throw_eq_error.mp failed
        exact ⟨b, ‹_›, ‹_›, rfl, octet_eq_ok.mp run⟩
  · rintro ⟨b, zero, one, rfl, passes⟩
    refine ⟨b, r', octet_eq_ok.mpr passes, ?_⟩
    rw [if_neg zero, if_neg one]
    rfl

theorem length_eq_error : length r = .error e r' ↔
    r.RunsOut 4 e r' ∨ ∃ n, n < leBound 4 ∧ r.limit < n ∧ e = .lengthLimit n r.limit ∧
      r.Passes (leBytes 4 n) r' := by
  rw [length, bind_eq_error, word_eq_error]
  refine or_congr_right ⟨?_, ?_⟩
  · rintro ⟨n, u, run, failed⟩
    obtain ⟨small, passes⟩ := word_eq_ok.mp run
    rw [get_bind] at failed
    split at failed
    · next above =>
        obtain ⟨rfl, rfl⟩ := throw_eq_error.mp failed
        rw [passes.limit_eq] at above ⊢
        exact ⟨n, small, above, rfl, passes⟩
    · exact (pure_eq_error.mp failed).elim
  · rintro ⟨n, small, above, rfl, passes⟩
    refine ⟨n, r', word_eq_ok.mpr ⟨small, passes⟩, ?_⟩
    rw [← passes.limit_eq] at above ⊢
    rw [get_bind, if_pos above]
    rfl

theorem sized_eq_error : sized r = .error e r' ↔
    length r = .error e r' ∨ ∃ n u, n ≤ r.limit ∧ n < leBound 4 ∧ r.Passes (leBytes 4 n) u ∧
      u.RunsOut n e r' := by
  rw [sized, bind_eq_error]
  simp only [length_eq_ok, raw_eq_error, and_assoc]

theorem text_eq_error : text r = .error e r' ↔
    sized r = .error e r' ∨ ∃ bs, bs.length ≤ r.limit ∧ bs.length < leBound 4 ∧
      Utf8.decode? bs = none ∧ e = .invalidUtf8 ∧ r.Passes (leBytes 4 bs.length ++ bs) r' := by
  rw [text, bind_eq_error]
  refine or_congr_right ⟨?_, ?_⟩
  · rintro ⟨bs, u, run, failed⟩
    obtain ⟨within, small, passes⟩ := sized_eq_ok.mp run
    cases garbled : Utf8.decode? bs with
    | some s =>
        rw [garbled] at failed
        exact (pure_eq_error.mp failed).elim
    | none =>
        rw [garbled] at failed
        obtain ⟨rfl, rfl⟩ := throw_eq_error.mp failed
        exact ⟨bs, within, small, garbled, rfl, passes⟩
  · rintro ⟨bs, within, small, garbled, rfl, passes⟩
    refine ⟨bs, r', sized_eq_ok.mpr ⟨within, small, passes⟩, ?_⟩
    rw [garbled]
    rfl

end Reading

namespace FieldKind

def head : FieldKind → Nat
  | .bool => 1
  | .scalar s => s.width
  | .raw count => count
  | .length | .sized | .text => 4

def IsCounted : FieldKind → Prop
  | .length | .sized | .text => True
  | .bool | .scalar _ | .raw _ => False

def HasContent : FieldKind → Prop
  | .sized | .text => True
  | .bool | .scalar _ | .raw _ | .length => False

def IsPlain : FieldKind → Prop
  | .scalar _ | .raw _ => True
  | .bool | .length | .sized | .text => False

inductive Stops (r : ByteReader) : FieldKind → WalkError → Bytes → Prop
  /-- The input ends within the head of the field. -/
  | short {k : FieldKind} : r.remaining < k.head → Stops r k (.unexpectedEnd k.head r.remaining) []
  | tag {b : UInt8} : b ≠ 0 → b ≠ 1 → Stops r .bool (.invalidTag "bool" b) [b]
  | above {k : FieldKind} {n : Nat} : k.IsCounted → n < leBound 4 → r.limit < n →
      Stops r k (.lengthLimit n r.limit) (leBytes 4 n)
  /-- The input ends within the content. -/
  | cut {k : FieldKind} {n left : Nat} : k.HasContent → n < leBound 4 → n ≤ r.limit →
      r.remaining = 4 + left → left < n → Stops r k (.unexpectedEnd n left) (leBytes 4 n)
  | garbled {bs : Bytes} : bs.length < leBound 4 → bs.length ≤ r.limit → Utf8.decode? bs = none →
      Stops r .text .invalidUtf8 (leBytes 4 bs.length ++ bs)

variable {r r' : ByteReader} {k : FieldKind} {e : WalkError} {passed : Bytes}

theorem stops_of_runsOut (short : r.RunsOut k.head e r') :
    ∃ passed, Stops r k e passed ∧ r.Passes passed r' := by
  obtain ⟨short, rfl, rfl⟩ := short
  exact ⟨[], .short short, .refl _⟩

theorem head_of_isCounted (counted : k.IsCounted) : k.head = 4 := by
  cases k <;> simp_all [IsCounted, head]

theorem HasContent.isCounted (content : k.HasContent) : k.IsCounted := by
  cases k <;> simp_all [IsCounted, HasContent]

theorem IsCounted.not_isPlain (counted : k.IsCounted) : ¬ k.IsPlain := by
  cases k <;> simp_all [IsCounted, IsPlain]

theorem stops_of_length (counted : k.IsCounted) (run : Reading.length r = .error e r') :
    ∃ passed, Stops r k e passed ∧ r.Passes passed r' := by
  rcases Reading.length_eq_error.mp run with short | ⟨n, small, above, rfl, passes⟩
  · exact stops_of_runsOut (by rwa [head_of_isCounted counted])
  · exact ⟨_, .above counted small above, passes⟩

theorem stops_of_sized (content : k.HasContent) (run : Reading.sized r = .error e r') :
    ∃ passed, Stops r k e passed ∧ r.Passes passed r' := by
  rcases Reading.sized_eq_error.mp run with run | ⟨n, u, within, small, passes, short, rfl, rfl⟩
  · exact stops_of_length content.isCounted run
  · have left : r.remaining = 4 + r'.remaining := by
      rw [passes.remaining_eq, length_leBytes]
    exact ⟨_, .cut content small within left short, passes⟩

theorem stops_of_read (run : k.read r = .error e r') :
    ∃ passed, Stops r k e passed ∧ r.Passes passed r' := by
  cases k with
  | bool =>
      rcases Reading.bool_eq_error.mp (Reading.mapped_eq_error.mp run) with
        short | ⟨b, zero, one, rfl, passes⟩
      · exact stops_of_runsOut short
      · exact ⟨[b], .tag zero one, passes⟩
  | scalar s => exact stops_of_runsOut (Reading.scalar_eq_error.mp (Reading.mapped_eq_error.mp run))
  | raw count => exact stops_of_runsOut (Reading.raw_eq_error.mp (Reading.mapped_eq_error.mp run))
  | length => exact stops_of_length trivial (Reading.mapped_eq_error.mp run)
  | sized => exact stops_of_sized trivial (Reading.mapped_eq_error.mp run)
  | text =>
      rcases Reading.text_eq_error.mp (Reading.mapped_eq_error.mp run) with
        run | ⟨bs, within, small, garbled, rfl, passes⟩
      · exact stops_of_sized trivial run
      · exact ⟨_, .garbled small within garbled, passes⟩

theorem read_of_length_error (counted : k.IsCounted) (run : Reading.length r = .error e r') :
    k.read r = .error e r' := by
  have sized : Reading.sized r = .error e r' := Reading.sized_eq_error.mpr (.inl run)
  cases k <;> simp only [IsCounted] at counted
  case length => exact Reading.mapped_eq_error.mpr run
  case sized => exact Reading.mapped_eq_error.mpr sized
  case text => exact Reading.mapped_eq_error.mpr (Reading.text_eq_error.mpr (.inl sized))

theorem read_of_sized_error (content : k.HasContent) (run : Reading.sized r = .error e r') :
    k.read r = .error e r' := by
  cases k <;> simp only [HasContent] at content
  case sized => exact Reading.mapped_eq_error.mpr run
  case text => exact Reading.mapped_eq_error.mpr (Reading.text_eq_error.mpr (.inl run))

theorem read_of_short (short : r.remaining < k.head) :
    k.read r = .error (.unexpectedEnd k.head r.remaining) r := by
  by_cases counted : k.IsCounted
  · refine read_of_length_error counted (Reading.length_eq_error.mpr (.inl ?_))
    rw [head_of_isCounted counted] at short ⊢
    exact ⟨short, rfl, rfl⟩
  · cases k <;> simp only [IsCounted, not_true] at counted
    all_goals refine Reading.mapped_eq_error.mpr ?_
    case bool => exact Reading.bool_eq_error.mpr (.inl ⟨short, rfl, rfl⟩)
    case scalar s => exact Reading.scalar_eq_error.mpr ⟨short, rfl, rfl⟩
    case raw count => exact Reading.raw_eq_error.mpr ⟨short, rfl, rfl⟩

theorem read_eq_error : k.read r = .error e r' ↔
    ∃ passed, Stops r k e passed ∧ r.Passes passed r' := by
  refine ⟨stops_of_read, ?_⟩
  rintro ⟨passed, stops, passes⟩
  cases stops with
  | short short =>
      obtain rfl := ByteReader.passes_nil.mp passes
      exact read_of_short short
  | tag zero one =>
      exact Reading.mapped_eq_error.mpr
        (Reading.bool_eq_error.mpr (.inr ⟨_, zero, one, rfl, passes⟩))
  | above counted small above =>
      exact read_of_length_error counted
        (Reading.length_eq_error.mpr (.inr ⟨_, small, above, rfl, passes⟩))
  | @cut k n left content small within left_eq short =>
      have left_eq' : r'.remaining = left := by
        have total := passes.remaining_eq
        rw [length_leBytes] at total
        omega
      subst left_eq'
      exact read_of_sized_error content
        (Reading.sized_eq_error.mpr (.inr ⟨n, r', within, small, passes, short, rfl, rfl⟩))
  | garbled small within garbled =>
      exact Reading.mapped_eq_error.mpr
        (Reading.text_eq_error.mpr (.inr ⟨_, within, small, garbled, rfl, passes⟩))

/-! ## Where the reader stands -/

theorem Stops.head_cases (stops : Stops r k e passed) :
    r.remaining < k.head ∧ passed = [] ∨
      ¬ k.IsPlain ∧ 0 < k.head ∧ k.head ≤ passed.length := by
  cases stops with
  | short short => exact .inl ⟨short, rfl⟩
  | tag => exact .inr ⟨not_false, by decide, Nat.le_refl _⟩
  | above counted =>
      rw [head_of_isCounted counted, length_leBytes]
      exact .inr ⟨counted.not_isPlain, by decide, Nat.le_refl _⟩
  | cut content =>
      rw [head_of_isCounted content.isCounted, length_leBytes]
      exact .inr ⟨content.isCounted.not_isPlain, by decide, Nat.le_refl _⟩
  | garbled =>
      refine .inr ⟨not_false, by decide, ?_⟩
      rw [List.length_append, length_leBytes]
      exact Nat.le_add_right _ _

/-- A failed read leaves the cursor alone only where the input ends within the head. -/
theorem position_of_read_error (run : k.read r = .error e r') :
    (r'.position = r.position ↔ r.remaining < k.head) ∧ (k.IsPlain → r' = r) := by
  obtain ⟨passed, stops, passes⟩ := stops_of_read run
  have position := passes.position_eq
  have remaining := passes.remaining_eq
  rcases stops.head_cases with ⟨short, rfl⟩ | ⟨composed, positive, behind⟩
  · obtain rfl := ByteReader.passes_nil.mp passes
    exact ⟨by simp [short], fun _ => rfl⟩
  · exact ⟨by omega, fun plain => absurd plain composed⟩

end FieldKind

theorem FieldKind.read_advances (k : FieldKind) : k.read.Advances := by
  have wrapped {α : Type} {act : Reading α} {wrap : α → Field} (advances : act.Advances) :
      Reading.Advances (do return wrap (← act)) :=
    Reading.rules_advances.bind advances fun _ => Reading.rules_advances.pure _
  cases k with
  | bool => exact wrapped (Reading.rules_advances.field .bool)
  | scalar s => exact wrapped (Reading.rules_advances.field (.scalar s))
  | raw count => exact wrapped (Reading.rules_advances.raw count)
  | length => exact wrapped (Reading.rules_advances.field .length)
  | sized => exact wrapped (Reading.rules_advances.field .sized)
  | text => exact wrapped (Reading.rules_advances.field .text)

namespace ByteReader

def after (kinds : List FieldKind) (r : ByteReader) : ByteReader :=
  kinds.foldl (fun r k => finalState (k.read r)) r

theorem exists_passes_after (kinds : List FieldKind) (r : ByteReader) :
    ∃ passed, r.Passes passed (r.after kinds) := by
  induction kinds generalizing r with
  | nil => exact ⟨[], .refl r⟩
  | cons k kinds ih =>
      obtain ⟨passed, passes⟩ := k.read_advances r
      obtain ⟨more, others⟩ := ih (finalState (k.read r))
      exact ⟨passed ++ more, passes.trans others⟩

/-- The position is a place in the input, and what is left is what stands behind it. -/
structure Over (data : Bytes) (r : ByteReader) : Prop where
  position_le : r.position ≤ data.length
  rest_eq : r.rest = data.drop r.position
  remaining_eq : r.remaining = data.length - r.position

theorem over_after (data : Bytes) (limit : Nat) (kinds : List FieldKind) :
    (after kinds { rest := data, limit }).Over data := by
  obtain ⟨passed, passes⟩ := exists_passes_after kinds { rest := data, limit }
  generalize after kinds { rest := data, limit } = r at passes
  have start : data = passed ++ r.rest := passes.rest_eq
  have position : r.position = passed.length := passes.position_eq.trans (Nat.zero_add _)
  have remaining : r.remaining = r.rest.length := rfl
  subst start
  constructor
  · simp [position]
  · rw [position, List.drop_left]
  · simp [position, remaining]

/-- After any reads the cursor stands within the input.  A further read that fails does so
in one of the ways above, and leaves the cursor where it was exactly if the input ended
within the head; that is the only way in which numbers and raw octets fail. -/
theorem cursor_of_failed_read (data : Bytes) (limit : Nat) (before : List FieldKind)
    (k : FieldKind) :
    let r := after before { rest := data, limit }
    r.Over data ∧ ∀ e r',
      (k.read r = .error e r' ↔ ∃ passed, k.Stops r e passed ∧ r.Passes passed r') ∧
      (k.read r = .error e r' →
        (r'.position = r.position ↔ r.remaining < k.head) ∧ (k.IsPlain → r' = r)) := by
  intro r
  refine ⟨over_after data limit before, fun e r' => ⟨FieldKind.read_eq_error, fun run => ?_⟩⟩
  exact FieldKind.position_of_read_error run

theorem cursor_of_failed_read_garbled :
    let r := after [.bool] { rest := [2, 1, 0, 0, 0, 0xff] }
    r.position = 1 ∧ r.Over [2, 1, 0, 0, 0, 0xff] ∧
      FieldKind.read .text r = .error .invalidUtf8 (r.skip 5) ∧
      ((r.skip 5).position = r.position ↔ r.remaining < 4) := by
  intro r
  obtain ⟨within, failed⟩ := cursor_of_failed_read [2, 1, 0, 0, 0, 0xff] maxPrefix [.bool] .text
  obtain ⟨ways, kept⟩ := failed .invalidUtf8 (r.skip 5)
  have garbled : Utf8.decode? [0xff] = none := by rfl
  have stops : FieldKind.Stops r .text .invalidUtf8 (leBytes 4 1 ++ [0xff]) :=
    .garbled (by decide) (by decide) garbled
  have run := ways.mpr ⟨_, stops, passes_skip rfl⟩
  exact ⟨rfl, within, run, (kept run).1⟩

/-- A refused boolean is behind the cursor, although the read failed. -/
theorem cursor_passes_refused_bool :
    FieldKind.read .bool { rest := [2] } =
      .error (.invalidTag "bool" 2) { rest := [], position := 1 } := by
  rfl

end ByteReader

end Chronicle
