import Chronicle.Proofs.Codec.Cursor
import Mathlib.Order.MinMax

/-!
# Lists of fields

Fields that a writer accepted one after the other are read back by the list of their
kinds, and the reader stops where the writer stopped.  A limit is the only thing that
makes a writer refuse a field; a reader under the same limit refuses the same lengths,
and the refused field leaves nothing behind.
-/

namespace Chronicle

open Success

theorem lt_leBound_iff {n : Nat} : n < leBound 4 ↔ n ≤ maxPrefix := by
  simp only [leBound, maxPrefix]
  omega

/-! ## What a field stands for -/

namespace Field

def encode : Field → Bytes
  | .bool b => [if b then 1 else 0]
  | .scalar s n => s.encode n
  | .raw bs => bs
  | .length n => leBytes 4 n
  | .sized bs => leBytes 4 bs.length ++ bs
  | .text s => leBytes 4 (Utf8.encode s).length ++ Utf8.encode s

def count? : Field → Option Nat
  | .length n => some n
  | .sized bs => some bs.length
  | .text s => some (Utf8.encode s).length
  | .bool _ | .scalar _ _ | .raw _ => none

def Typed : Field → Prop
  | .scalar s n => s.Holds n
  | .bool _ | .raw _ | .length _ | .sized _ | .text _ => True

instance (f : Field) : Decidable f.Typed := by
  cases f <;> unfold Typed <;> infer_instance

def Within (limit : Nat) (f : Field) : Prop :=
  ∀ n, f.count? = some n → n ≤ limit

variable {f : Field} {n limit : Nat}

/-! ## Writing -/

variable {w w' : ByteWriter} {e : WalkError}

theorem write_of_within (narrow : w.limit ≤ maxPrefix) (within : f.Within w.limit) :
    f.write w = .ok () (w.append f.encode) := by
  cases f with
  | bool b => exact Writing.raw_eq_ok.mpr rfl
  | scalar s n => exact Writing.raw_eq_ok.mpr rfl
  | raw bs => exact Writing.raw_eq_ok.mpr rfl
  | length n => exact (Writing.length_eq_ok narrow).mpr ⟨within _ rfl, rfl⟩
  | sized bs => exact (Writing.sized_eq_ok narrow).mpr ⟨within _ rfl, rfl⟩
  | text s => exact (Writing.sized_eq_ok narrow).mpr ⟨within _ rfl, rfl⟩

theorem write_of_above (counted : f.count? = some n) (above : w.limit < n) :
    f.write w = .error (.lengthLimit n w.limit) w := by
  have refused : Writing.length n w = .error (.lengthLimit n w.limit) w := by
    simp only [Writing.length, get_bind, if_pos above]
    rfl
  cases f <;> simp only [count?, reduceCtorEq, Option.some.injEq] at counted <;> subst counted
  case length => exact refused
  case sized => exact bind_of_error refused _
  case text => exact bind_of_error refused _

theorem write_eq_error (narrow : w.limit ≤ maxPrefix) :
    f.write w = .error e w' ↔
      ∃ n, f.count? = some n ∧ w.limit < n ∧ e = .lengthLimit n w.limit ∧ w' = w := by
  constructor
  · intro run
    by_cases within : f.Within w.limit
    · simp [write_of_within narrow within] at run
    · simp only [Within, not_forall, Nat.not_le] at within
      obtain ⟨n, counted, above⟩ := within
      simp only [write_of_above counted above, EStateM.Result.error.injEq] at run
      exact ⟨n, counted, above, run.1.symm, run.2.symm⟩
  · rintro ⟨n, counted, above, rfl, rfl⟩
    exact write_of_above counted above

theorem write_eq_ok {u : Unit} (narrow : w.limit ≤ maxPrefix) :
    f.write w = .ok u w' ↔ f.Within w.limit ∧ w' = w.append f.encode := by
  constructor
  · intro run
    have within : f.Within w.limit := by
      intro n counted
      by_contra above
      simp [write_of_above counted (Nat.lt_of_not_le above)] at run
    simp only [write_of_within narrow within, EStateM.Result.ok.injEq] at run
    exact ⟨within, run.2.symm⟩
  · rintro ⟨within, rfl⟩
    exact write_of_within narrow within

theorem writeAll_cons (fields : List Field) :
    writeAll (f :: fields) = (do f.write; writeAll fields) := rfl

theorem writeAll_eq_ok {fields : List Field} {u : Unit} (narrow : w.limit ≤ maxPrefix) :
    writeAll fields w = .ok u w' ↔
      (∀ f ∈ fields, f.Within w.limit) ∧ w' = w.append (fields.flatMap encode) := by
  induction fields generalizing w with
  | nil => simp [writeAll, pure_eq_ok, eq_comm]
  | cons f fields ih =>
      simp only [writeAll_cons, bind_eq_ok, write_eq_ok narrow, List.forall_mem_cons,
        List.flatMap_cons]
      constructor
      · rintro ⟨_, v, ⟨within, rfl⟩, run⟩
        obtain ⟨others, rfl⟩ := (ih (w := w.append f.encode) narrow).mp run
        exact ⟨⟨within, others⟩, ByteWriter.append_append _ _ _⟩
      · rintro ⟨⟨within, others⟩, rfl⟩
        refine ⟨(), _, ⟨within, rfl⟩, (ih (w := w.append f.encode) narrow).mpr ⟨others, ?_⟩⟩
        rw [ByteWriter.append_append]

end Field

/-! ## Reading -/

namespace FieldKind

variable {r r' : ByteReader} {f : Field} {k : FieldKind}

theorem wrapped_eq_ok {α : Type} {act : Reading α} {wrap : α → Field} :
    (do return wrap (← act) : Reading Field) r = .ok f r' ↔
      ∃ a, act r = .ok a r' ∧ wrap a = f := by
  simp only [bind_eq_ok, pure_eq_ok]
  constructor
  · rintro ⟨a, _, run, wrapped, rfl⟩
    exact ⟨a, run, wrapped⟩
  · rintro ⟨a, run, wrapped⟩
    exact ⟨a, r', run, wrapped, rfl⟩

theorem kind_of_read (run : k.read r = .ok f r') : f.kind = k := by
  cases k <;> obtain ⟨a, read, rfl⟩ := wrapped_eq_ok.mp run
  case raw count => exact congrArg raw (Reading.raw_eq_ok.mp read).1
  all_goals rfl

theorem read_kind_eq_ok : f.kind.read r = .ok f r' ↔
    f.Typed ∧ f.Within (min r.limit maxPrefix) ∧ r.Passes f.encode r' := by
  cases f <;> simp only [Field.kind, read, wrapped_eq_ok, Field.bool.injEq, Field.scalar.injEq,
    Field.raw.injEq, Field.length.injEq, Field.sized.injEq, Field.text.injEq, true_and,
    exists_eq_right, Field.Typed, Field.Within, Field.count?, Field.encode]
  case bool b => simp [Reading.bool_eq_ok]
  case scalar s n => simp [Reading.scalar_eq_ok]
  case raw bs => simp [Reading.raw_eq_ok]
  case length n => simp [Reading.length_eq_ok, lt_leBound_iff, and_assoc]
  case sized bs => simp [Reading.sized_eq_ok, lt_leBound_iff, and_assoc]
  case text s => simp [Reading.text_eq_ok, lt_leBound_iff, and_assoc]

theorem readAll_cons (k : FieldKind) (kinds : List FieldKind) :
    readAll (k :: kinds) = (do return (← k.read) :: (← readAll kinds)) :=
  List.mapM_cons

theorem readAll_eq_ok {kinds : List FieldKind} {fields : List Field} :
    readAll kinds r = .ok fields r' ↔
      fields.map Field.kind = kinds ∧
      (∀ f ∈ fields, f.Typed ∧ f.Within (min r.limit maxPrefix)) ∧
      r.Passes (fields.flatMap Field.encode) r' := by
  induction kinds generalizing r fields with
  | nil =>
      have nothing : readAll [] r = .ok fields r' ↔ [] = fields ∧ r = r' := pure_eq_ok
      rw [nothing, List.map_eq_nil_iff]
      constructor
      · rintro ⟨rfl, rfl⟩
        exact ⟨rfl, by simp, .refl r⟩
      · rintro ⟨rfl, -, passes⟩
        exact ⟨rfl, ByteReader.passes_nil.mp passes⟩
  | cons k kinds ih =>
      simp only [readAll_cons, bind_eq_ok, pure_eq_ok]
      constructor
      · rintro ⟨f, u, first, others, _, run, rfl, rfl⟩
        obtain rfl := kind_of_read first
        obtain ⟨typed, within, passes⟩ := read_kind_eq_ok.mp first
        obtain ⟨rfl, good, more⟩ := ih.mp run
        rw [passes.limit_eq] at good
        exact ⟨rfl, List.forall_mem_cons.mpr ⟨⟨typed, within⟩, good⟩, passes.trans more⟩
      · rintro ⟨kinds_eq, good, passes⟩
        obtain ⟨f, others, rfl, rfl, rfl⟩ := List.map_eq_cons_iff.mp kinds_eq
        obtain ⟨⟨typed, within⟩, good⟩ := List.forall_mem_cons.mp good
        obtain ⟨u, passes, more⟩ := ByteReader.passes_append.mp passes
        rw [← passes.limit_eq] at good
        exact ⟨f, u, read_kind_eq_ok.mpr ⟨typed, within, passes⟩, others, r',
          ih.mpr ⟨rfl, good, more⟩, rfl, rfl⟩

/-! ## Refusing -/

variable {n : Nat} {e : WalkError}

theorem isCounted_of_count? (counted : f.count? = some n) : f.kind.IsCounted := by
  cases f <;> first | exact trivial | simp [Field.count?] at counted

theorem prefix_unique {n m : Nat} {rest rest' : Bytes} (narrow : n < leBound 4)
    (narrow' : m < leBound 4) (same : leBytes 4 n ++ rest = leBytes 4 m ++ rest') : n = m := by
  have front := (List.append_inj same (by simp)).1
  have value := congrArg ofLeBytes front
  rwa [ofLeBytes_leBytes, ofLeBytes_leBytes, Nat.mod_eq_of_lt narrow,
    Nat.mod_eq_of_lt narrow'] at value

theorem refuses_prefix_iff {rest : Bytes} {length limit : Nat} (counted : f.count? = some n)
    (narrow : n ≤ maxPrefix) (start : r.rest = leBytes 4 n ++ rest) :
    (∃ r', f.kind.read r = .error (.lengthLimit length limit) r') ↔
      r.limit < n ∧ length = n ∧ limit = r.limit := by
  constructor
  · rintro ⟨r', run⟩
    obtain ⟨passed, stops, passes⟩ := stops_of_read run
    generalize f.kind = k at stops
    cases stops with
    | above _ small above =>
        have same := passes.rest_eq.symm.trans start
        obtain rfl := prefix_unique small (lt_leBound_iff.mpr narrow) same
        exact ⟨above, rfl, rfl⟩
  · rintro ⟨above, rfl, rfl⟩
    have small := lt_leBound_iff.mpr narrow
    exact ⟨_, read_eq_error.mpr
      ⟨_, .above (isCounted_of_count? counted) small above, ByteReader.passes_skip start⟩⟩

end FieldKind

namespace Field

variable {w : ByteWriter} {n : Nat}

theorem limit_below_prefix {m : Nat} (short : n ≤ maxPrefix)
    (limit : w.limit = (ByteWriter.withLimit m).limit) (above : w.limit < n) :
    w.limit = m ∧ m < n := by
  simp only [ByteWriter.withLimit] at limit
  omega

/-- What a writer under a limit accepted, a reader under the same limit reads back up to
the very end of it, whatever stands behind; and both refuse the same lengths with the same
error, where the writer is left as it was. -/
theorem written_fields_read_back (m : Nat) :
    (∀ (fields : List Field) (w : ByteWriter), (∀ f ∈ fields, f.Typed) →
      writeAll fields (.withLimit m) = .ok () w → ∀ rest,
      FieldKind.readAll (fields.map kind) { rest := w.toBytes ++ rest, limit := m } =
        .ok fields { rest, position := w.size, limit := m }) ∧
    ∀ (f : Field) (w : ByteWriter), w.limit = (ByteWriter.withLimit m).limit →
      (∀ e w', f.write w = .error e w' → w' = w) ∧
      ∀ (n : Nat) (r : ByteReader) (rest : Bytes), f.count? = some n → n ≤ maxPrefix →
        r.limit = m → r.rest = leBytes 4 n ++ rest → ∀ e,
          (∃ w', f.write w = .error e w') ↔
            e = .lengthLimit n m ∧ ∃ r', f.kind.read r = .error e r' := by
  have narrow : (ByteWriter.withLimit m).limit ≤ maxPrefix := Nat.min_le_right _ _
  refine ⟨fun fields w typed written rest => ?_, fun f w limit => ⟨fun e w' refused => ?_, ?_⟩⟩
  · obtain ⟨within, rfl⟩ := (writeAll_eq_ok narrow).mp written
    refine FieldKind.readAll_eq_ok.mpr ⟨rfl, fun f mem => ⟨typed f mem, within f mem⟩, ?_⟩
    constructor <;>
      simp [ByteWriter.withLimit, ByteWriter.toBytes, ByteWriter.size, ByteWriter.append]
  · obtain ⟨n, _, _, _, rfl⟩ := (write_eq_error (limit ▸ narrow)).mp refused
    rfl
  · rintro n r rest counted short rfl start e
    constructor
    · rintro ⟨w', refused⟩
      obtain ⟨n', counted', above, rfl, -⟩ := (write_eq_error (limit ▸ narrow)).mp refused
      obtain rfl : n = n' := Option.some.inj (counted.symm.trans counted')
      obtain ⟨same, above⟩ := limit_below_prefix short limit above
      rw [same]
      exact ⟨rfl, (FieldKind.refuses_prefix_iff counted short start).mpr ⟨above, rfl, rfl⟩⟩
    · rintro ⟨rfl, refused⟩
      obtain ⟨above, -, -⟩ := (FieldKind.refuses_prefix_iff counted short start).mp refused
      have same : w.limit = r.limit :=
        limit.trans (Nat.min_eq_left (Nat.le_trans (Nat.le_of_lt above) short))
      rw [← same] at above ⊢
      exact ⟨w, write_of_above counted above⟩

/-- Fields of every kind, with a text that just meets a limit of four. -/
def mixed : List Field :=
  [.bool true, .scalar .i16 (-2), .raw [7, 8], .length 3, .sized [1, 2], .text "four"]

theorem written_fields_read_back_mixed :
    let w : ByteWriter := (ByteWriter.withLimit 4).append (mixed.flatMap encode)
    writeAll mixed (.withLimit 4) = .ok () w ∧
      FieldKind.readAll (mixed.map kind) { rest := w.toBytes ++ [9], limit := 4 } =
        .ok mixed { rest := [9], position := 23, limit := 4 } ∧
      (text "fives").write w = .error (.lengthLimit 5 4) w ∧
      ∃ r', FieldKind.read .text { rest := [5, 0, 0, 0], limit := 4 } =
        .error (.lengthLimit 5 4) r' := by
  intro w
  obtain ⟨back, refused⟩ := written_fields_read_back 4
  have written : writeAll mixed (.withLimit 4) = .ok () w := by rfl
  have long : (text "fives").write w = .error (.lengthLimit 5 4) w := by rfl
  obtain ⟨-, both⟩ := refused (text "fives") w rfl
  refine ⟨written, back mixed w (by decide) written [9], long, ?_⟩
  exact ((both 5 { rest := [5, 0, 0, 0], limit := 4 } [] rfl (by decide) rfl rfl _).mp ⟨w, long⟩).2

end Field

end Chronicle
