import Chronicle.Proofs.Loop.Appending
import Chronicle.Proofs.Loop.Stream

/-!
# Sinks that fill up

A sink may take only so many octets.  A writer goes on until a record does not fit;
the sink keeps the front of that one and takes nothing more.  So what was
acknowledged stands at the beginning of the sink, and a reader gets it back before
it comes to the torn end.
-/

namespace Chronicle.Loop

open Success

/-! ## Outcomes of appending -/

def acknowledged : List Record → List (Except LoopError Unit) → List Record
  | rec :: records, .ok _ :: results => rec :: acknowledged records results
  | _ :: records, .error _ :: results => acknowledged records results
  | _, _ => []

def firstFailed? : List Record → List (Except LoopError Unit) → Option Record
  | rec :: _, .error .io :: _ => some rec
  | _ :: records, _ :: results => firstFailed? records results
  | _, _ => none

def LeftOver : Option Record → Bytes → Prop
  | none, torn => torn = []
  | some rec, torn => torn <+: rec.encode ∧ torn ≠ rec.encode

variable {limits : LoopLimits} {w : Writer} {rec : Record} {capacity : Nat}

theorem refusal?_ne_io : rec.refusal? limits ≠ some .io := by
  unfold Record.refusal?
  split
  · simp
  · split
    · simp
    · split <;> simp

theorem firstFailed?_cons_of_ne {e : LoopError} (other : e ≠ .io) (rec : Record)
    (records : List Record) (results : List (Except LoopError Unit)) :
    firstFailed? (rec :: records) (.error e :: results) = firstFailed? records results := by
  cases e with
  | io => contradiction
  | _ => rfl

/-! ## A run of appending -/

/-- What a run leaves behind: a count of what was acknowledged, and that in the sink
with what is left of the first record that failed. -/
structure Leaves (w : Writer) (records : List Record) (results : List (Except LoopError Unit))
    (last : Writer) : Prop where
  counted : last.recordsWritten = w.recordsWritten + results.countP Except.isOk
  length_eq : (acknowledged records results).length = results.countP Except.isOk
  admitted : ∀ rec ∈ acknowledged records results, rec.refusal? w.limits = none
  failed : ∀ rec ∈ firstFailed? records results, rec.refusal? w.limits = none
  content : ∃ torn, LeftOver (firstFailed? records results) torn ∧ last.sink.content =
    w.sink.content ++ (acknowledged records results).flatMap Record.encode ++ torn

namespace Leaves

variable {records : List Record} {results : List (Except LoopError Unit)} {last : Writer}

theorem nil (w : Writer) : Leaves w [] [] w where
  counted := rfl
  length_eq := rfl
  admitted := by simp [acknowledged]
  failed := by simp [firstFailed?]
  content := ⟨[], rfl, by simp [acknowledged]⟩

theorem refused {e : LoopError} (other : e ≠ .io) (rest : Leaves w records results last) :
    Leaves w (rec :: records) (.error e :: results) last where
  counted := rest.counted
  length_eq := rest.length_eq
  admitted := rest.admitted
  failed := by
    rw [firstFailed?_cons_of_ne other]
    exact rest.failed
  content := by
    rw [firstFailed?_cons_of_ne other]
    exact rest.content

theorem taken (fits : rec.refusal? w.limits = none)
    (rest : Leaves (w.put rec.encode).counted records results last) :
    Leaves w (rec :: records) (.ok () :: results) last where
  counted := by
    have more : (w.put rec.encode).counted.recordsWritten = w.recordsWritten + 1 := rfl
    rw [rest.counted, List.countP_cons_of_pos rfl, more]
    omega
  length_eq := by
    rw [acknowledged, List.length_cons, rest.length_eq, List.countP_cons_of_pos rfl]
  admitted := List.forall_mem_cons.mpr ⟨fits, rest.admitted⟩
  failed := rest.failed
  content := by
    obtain ⟨torn, left, content⟩ := rest.content
    refine ⟨torn, left, ?_⟩
    rw [content, acknowledged, List.flatMap_cons]
    simp only [Writer.counted, Writer.put, List.append_assoc]

theorem torn {k : Nat} (fits : rec.refusal? w.limits = none) (short : k < rec.encode.length)
    (nothing : acknowledged records results = []) (none : results.countP Except.isOk = 0) :
    Leaves w (rec :: records) (.error .io :: results) (w.put (rec.encode.take k)) where
  counted := by
    rw [List.countP_cons_of_neg (by simp [Except.toBool]), none]
    rfl
  length_eq := by
    rw [acknowledged, nothing, List.countP_cons_of_neg (by simp [Except.toBool]), none]
    rfl
  admitted := by simp [acknowledged, nothing]
  failed := by simpa [firstFailed?] using fits
  content := by
    refine ⟨rec.encode.take k, ⟨List.take_prefix _ _, fun all => ?_⟩, ?_⟩
    · have := congrArg List.length all
      rw [List.length_take] at this
      omega
    · simp [acknowledged, nothing, Writer.put]

end Leaves

theorem append_of_full (bounded : w.sink.capacity = some capacity)
    (full : capacity ≤ w.sink.content.length) (rec : Record) : ∃ e, w.append rec = .error e w := by
  cases fits : rec.refusal? w.limits with
  | some e => exact ⟨e, append_of_refusal fits⟩
  | none =>
      have nothing : capacity - w.sink.content.length = 0 := Nat.sub_eq_zero_of_le full
      have run := append_of_short fits bounded (nothing ▸ Reader.length_encode_pos rec)
      rw [nothing, List.take_zero, Writer.put_nil] at run
      exact ⟨.io, run⟩

theorem appendAll_of_full (bounded : w.sink.capacity = some capacity)
    (full : capacity ≤ w.sink.content.length) (records : List Record) :
    (appendAll w records).2 = w ∧ acknowledged records (appendAll w records).1 = [] ∧
      (appendAll w records).1.countP Except.isOk = 0 := by
  induction records with
  | nil => exact ⟨rfl, rfl, rfl⟩
  | cons rec records ih =>
      obtain ⟨e, run⟩ := append_of_full bounded full rec
      rw [appendAll_cons_of_error run]
      exact ih

/-- By induction on the records; what is left to do after the first that does not
fit is done on a full sink. -/
theorem leaves_appendAll (bounded : w.sink.capacity = some capacity) (records : List Record) :
    Leaves w records (appendAll w records).1 (appendAll w records).2 := by
  induction records generalizing w with
  | nil => exact .nil w
  | cons rec records ih =>
      cases fits : rec.refusal? w.limits with
      | some e =>
          have other : e ≠ .io := by
            rintro rfl
            exact refusal?_ne_io fits
          rw [appendAll_cons_of_error (append_of_refusal fits)]
          exact .refused other (ih bounded)
      | none =>
          by_cases room : rec.encode.length ≤ capacity - w.sink.content.length
          · rw [appendAll_cons_of_ok (append_of_room fits (by simpa [bounded] using room))]
            exact .taken fits (ih bounded)
          · have short := Nat.not_le.mp room
            rw [appendAll_cons_of_error (append_of_short fits bounded short)]
            have full : capacity ≤
                (w.put (rec.encode.take
                  (capacity - w.sink.content.length))).sink.content.length := by
              simp [Writer.put]
              omega
            obtain ⟨last, nothing, none⟩ := appendAll_of_full
              (w := w.put (rec.encode.take _)) bounded full records
            rw [last]
            exact .torn fits short nothing none

/-! ## Reading the sink -/

section Reading

variable {k : Nat} {front rs : List Record} {failed : Option Record} {torn : Bytes}

theorem recordsWithin_append (k : Nat) (front rs : List Record) :
    recordsWithin ((front.flatMap Record.encode).length + k) (front ++ rs) =
      front ++ recordsWithin k rs := by
  induction front with
  | nil => simp
  | cons rec front ih =>
      have length := rec.length_encode
      rw [List.flatMap_cons, List.length_append, List.cons_append, recordsWithin, if_pos (by omega),
        List.cons_append, ← ih]
      congr 2
      omega

theorem isBoundary_append (k : Nat) (front rs : List Record) :
    IsBoundary ((front.flatMap Record.encode).length + k) (front ++ rs) ↔ IsBoundary k rs := by
  induction front with
  | nil => simp
  | cons rec front ih =>
      have length := rec.length_encode
      rw [List.flatMap_cons, List.length_append, List.cons_append, isBoundary_cons (by omega), ← ih]
      have rest : rec.encode.length + (front.flatMap Record.encode).length + k - rec.encodedLength =
          (front.flatMap Record.encode).length + k := by
        omega
      rw [rest]

/-- What is left of a record that failed is a front of it, which holds no record
and ends at a boundary only if it is empty. -/
theorem LeftOver.cut (left : LeftOver failed torn) :
    torn = (failed.toList.flatMap Record.encode).take torn.length ∧
      recordsWithin torn.length failed.toList = [] ∧
        (IsBoundary torn.length failed.toList ↔ torn = []) := by
  cases failed with
  | none =>
      obtain rfl : torn = [] := left
      exact ⟨rfl, rfl, fun _ => rfl, fun _ => isBoundary_zero _⟩
  | some rec =>
      obtain ⟨⟨missing, all⟩, strict⟩ := left
      have short : torn.length < rec.encodedLength := by
        have some : missing ≠ [] := by
          rintro rfl
          exact strict (by rw [← all, List.append_nil])
        have := List.length_pos_iff.mpr some
        rw [← rec.length_encode, ← all, List.length_append]
        omega
      refine ⟨?_, if_neg (by omega), fun boundary => ?_, ?_⟩
      · simp [← all]
      · by_contra nonempty
        exact not_isBoundary_cons (List.length_pos_iff.mpr nonempty) short boundary
      · rintro rfl
        exact isBoundary_zero _

/-- A reader of whole records and what is left of one more returns the whole ones,
and then the end if nothing is left, or a truncation. -/
theorem calls_of_leftOver (window : limits.maxComment + 2 < leBound 8)
    (admitted : ∀ rec ∈ front, rec.refusal? limits = none)
    (fits : ∀ rec ∈ failed, rec.refusal? limits = none) (left : LeftOver failed torn) :
    ∃ last final, (Reader.ofBytes (front.flatMap Record.encode ++ torn) limits).calls
        (front.length + 1) = (front.map (fun rec => .ok (some rec)) ++ [last], final) ∧
      (torn = [] → last = .ok none) ∧
      (torn ≠ [] → ∃ name place, last = .error (.truncated name place)) := by
  obtain ⟨cut, none, boundary⟩ := left.cut
  have all : ∀ rec ∈ front ++ failed.toList, rec.refusal? limits = .none :=
    List.forall_mem_append.mpr ⟨admitted, by simpa using fits⟩
  have within : (front.flatMap Record.encode).length + torn.length ≤
      ((front ++ failed.toList).flatMap Record.encode).length := by
    have := congrArg List.length cut
    rw [List.length_take] at this
    rw [List.flatMap_append, List.length_append]
    omega
  have start : front.flatMap Record.encode ++ torn =
      ((front ++ failed.toList).flatMap Record.encode).take
        ((front.flatMap Record.encode).length + torn.length) := by
    rw [List.flatMap_append, List.take_length_add_append, ← cut]
  obtain ⟨last, final, run, closes⟩ := Reader.calls_of_cut
    (r := Reader.ofBytes (front.flatMap Record.encode ++ torn) limits) window all rfl
    (Reader.active_ofBytes _ _) ⟨rfl, rfl⟩ within start
  rw [recordsWithin_append, none, List.append_nil] at run
  refine ⟨last, final, run, fun empty => ?_, fun nonempty => ?_⟩
  · exact (closes.boundary ((isBoundary_append _ _ _).mpr (boundary.mpr empty))).1
  · exact (closes.inside fun inside =>
      nonempty (boundary.mp ((isBoundary_append _ _ _).mp inside))).1

end Reading

/-- Whatever a sink holds in all, and whatever records are appended to it: the
writer counts the appends that were acknowledged, the sink holds those records and
a strict front of the first one whose writing failed, a refused record changes
nothing, and a reader returns the acknowledged records and then the end, or a
truncation if a front is left. -/
theorem acknowledged_read_back (window : limits.maxComment + 2 < leBound 8) (capacity : Nat)
    (records : List Record) {results : List (Except LoopError Unit)} {last : Writer}
    (run : appendAll { sink := { capacity := some capacity }, limits } records = (results, last)) :
    last.recordsWritten = results.countP Except.isOk ∧
      (acknowledged records results).length = results.countP Except.isOk ∧
      (∀ (w : Writer) rec e, Record.encode? w.limits rec = .error e → w.append rec = .error e w) ∧
      ∃ torn, last.sink.content = (acknowledged records results).flatMap Record.encode ++ torn ∧
        LeftOver (firstFailed? records results) torn ∧
        ∃ answer final,
          (Reader.ofBytes last.sink.content limits).calls
              ((acknowledged records results).length + 1) =
            ((acknowledged records results).map (fun rec => .ok (some rec)) ++ [answer], final) ∧
          (torn = [] → answer = .ok none) ∧
          (torn ≠ [] → ∃ name place, answer = .error (.truncated name place)) := by
  have leaves := leaves_appendAll
    (w := { sink := { capacity := some capacity }, limits }) rfl records
  rw [run] at leaves
  obtain ⟨torn, left, content⟩ := leaves.content
  simp only [List.nil_append] at content
  refine ⟨leaves.counted.trans (Nat.zero_add _), leaves.length_eq, ?_, torn, content, left, ?_⟩
  · intro w rec e refused
    rw [Writer.append, get_bind, refused]
    rfl
  · rw [content]
    exact calls_of_leftOver window leaves.admitted leaves.failed left

open Record in
/-- A sink of 40 octets takes one of three samples, and the front of the next one;
a record with a zero octet in its comment comes between them. -/
theorem acknowledged_read_back_torn : ({} : LoopLimits).maxComment + 2 < leBound 8 ∧ ∃ last,
    appendAll { sink := { capacity := some 40 } }
        [sample, { sample with comment := "\x00" }, sample, sample] =
      ([.ok (), .error (.invalidComment .zeroOctet), .error .io, .error .io], last) ∧
      last.recordsWritten = 1 ∧ ∃ name place final, (Reader.ofBytes last.sink.content {}).calls 2 =
        ([.ok (some sample), .error (.truncated name place)], final) := by
  have window : ({} : LoopLimits).maxComment + 2 < leBound 8 := by decide
  have run : appendAll { sink := { capacity := some 40 } }
        [sample, { sample with comment := "\x00" }, sample, sample] =
      ([.ok (), .error (.invalidComment .zeroOctet), .error .io, .error .io],
        { sink := { content := sample.encode ++ sample.encode.take 7, capacity := some 40 },
          recordsWritten := 1 }) := rfl
  obtain ⟨counted, -, -, torn, content, -, answer, final, read, -, truncated⟩ :=
    acknowledged_read_back window 40 _ run
  have left : sample.encode.take 7 = torn := List.append_cancel_left content
  obtain ⟨name, place, rfl⟩ := truncated (by rw [← left]; decide)
  exact ⟨window, _, run, counted, name, place, final, read⟩

end Chronicle.Loop
