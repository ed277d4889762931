import Chronicle.Loop.File
import Chronicle.Proofs.Success

/-!
# Appending to a sink

A record that the limits admit goes into a sink with room for it as its written
form, and one that they refuse leaves the sink alone.  Of a record for which there
is no room the sink keeps what fits.  So a session leaves behind what was there when
it opened the file and the written forms of the records it took.
-/

namespace Chronicle.Loop

open Success

variable {w : Writer} {rec : Record}

/-! ## Writing to a sink -/

theorem write_of_room {s : Sink} {bs : Bytes}
    (room : ∀ capacity ∈ s.capacity, bs.length ≤ capacity - s.content.length) :
    Sink.write bs s = .ok () { s with content := s.content ++ bs } := by
  rcases s with ⟨content, _ | capacity, flushFails⟩
  · rfl
  · have fits := room capacity rfl
    rw [Sink.write, get_bind]
    simp only [List.take_of_length_le fits, Nat.not_lt.mpr fits, ↓reduceIte]
    rfl

theorem write_of_short {s : Sink} {bs : Bytes} {capacity : Nat}
    (bounded : s.capacity = some capacity)
    (short : capacity - s.content.length < bs.length) : Sink.write bs s =
      .error .io { s with content := s.content ++ bs.take (capacity - s.content.length) } := by
  rcases s with ⟨content, _ | capacity', flushFails⟩
  · cases bounded
  · cases bounded
    rw [Sink.write, get_bind]
    simp only [short, ↓reduceIte]
    rfl

/-! ## Appending a record -/

namespace Writer

def put (w : Writer) (bs : Bytes) : Writer :=
  { w with sink := { w.sink with content := w.sink.content ++ bs } }

@[simp] theorem put_nil (w : Writer) : w.put [] = w := by
  simp [put]

/-- The writer after one more record was acknowledged. -/
def counted (w : Writer) : Writer := { w with recordsWritten := w.recordsWritten + 1 }

end Writer

theorem append_of_refusal {e : LoopError} (refused : rec.refusal? w.limits = some e) :
    w.append rec = .error e w := by
  rw [Writer.append, get_bind, Record.encode?, refused]
  rfl

theorem append_of_room (fits : rec.refusal? w.limits = none)
    (room : ∀ capacity ∈ w.sink.capacity, rec.encode.length ≤ capacity - w.sink.content.length) :
    w.append rec = .ok () (w.put rec.encode).counted := by
  have sunk : Writer.onSink (Sink.write rec.encode) w = .ok () (w.put rec.encode) := by
    rw [Writer.onSink, write_of_room room]
    rfl
  rw [Writer.append, get_bind, Record.encode?, fits]
  exact bind_of_ok sunk _

theorem append_of_fits (fits : rec.refusal? w.limits = none)
    (unbounded : w.sink.capacity = none) : w.append rec = .ok () (w.put rec.encode).counted :=
  append_of_room fits (by simp [unbounded])

theorem append_of_short {capacity : Nat} (fits : rec.refusal? w.limits = none)
    (bounded : w.sink.capacity = some capacity)
    (short : capacity - w.sink.content.length < rec.encode.length) :
    w.append rec = .error .io (w.put (rec.encode.take (capacity - w.sink.content.length))) := by
  have sunk : Writer.onSink (Sink.write rec.encode) w =
      .error .io (w.put (rec.encode.take (capacity - w.sink.content.length))) := by
    rw [Writer.onSink, write_of_short bounded short]
    rfl
  rw [Writer.append, get_bind, Record.encode?, fits]
  exact bind_of_error sunk _

theorem append_cases (w : Writer) (rec : Record) :
    w.append rec = .ok () (w.put rec.encode).counted ∨
      ∃ e sink, w.append rec = .error e { w with sink } := by
  cases fits : rec.refusal? w.limits with
  | some e => exact .inr ⟨e, w.sink, append_of_refusal fits⟩
  | none =>
      by_cases room : ∀ capacity ∈ w.sink.capacity,
          rec.encode.length ≤ capacity - w.sink.content.length
      · exact .inl (append_of_room fits room)
      · obtain ⟨capacity, bounded, short⟩ : ∃ capacity, w.sink.capacity = some capacity ∧
            capacity - w.sink.content.length < rec.encode.length := by
          simpa using room
        exact .inr ⟨.io, _, append_of_short fits bounded short⟩

/-! ## Sessions -/

def accepted (limits : LoopLimits) (records : List Record) : List Record :=
  records.filter fun rec => rec.refusal? limits = none

theorem accepted_cons_of_fits {limits : LoopLimits} (fits : rec.refusal? limits = none)
    (records : List Record) : accepted limits (rec :: records) =
      rec :: accepted limits records := by
  simp [accepted, fits]

theorem accepted_cons_of_refusal {limits : LoopLimits} {e : LoopError}
    (refused : rec.refusal? limits = some e) (records : List Record) :
    accepted limits (rec :: records) = accepted limits records := by
  simp [accepted, refused]

theorem refusal?_of_mem_accepted {limits : LoopLimits} {records : List Record}
    (member : rec ∈ accepted limits records) : rec.refusal? limits = none := by
  simpa [accepted] using (List.mem_filter.mp member).2

def verdict (limits : LoopLimits) (rec : Record) : Except LoopError Unit :=
  match rec.refusal? limits with
  | none => .ok ()
  | some e => .error e

theorem appendAll_cons_of_ok {w' : Writer} (run : w.append rec = .ok () w')
    (records : List Record) :
    appendAll w (rec :: records) =
      (.ok () :: (appendAll w' records).1, (appendAll w' records).2) := by
  rw [appendAll, run]

theorem appendAll_cons_of_error {w' : Writer} {e : LoopError} (run : w.append rec = .error e w')
    (records : List Record) : appendAll w (rec :: records) =
      (.error e :: (appendAll w' records).1, (appendAll w' records).2) := by
  rw [appendAll, run]

theorem appendAll_eq (unbounded : w.sink.capacity = none) (records : List Record) :
    appendAll w records = (records.map (verdict w.limits), { w with
      sink := { w.sink with
        content := w.sink.content ++ (accepted w.limits records).flatMap Record.encode },
      recordsWritten := w.recordsWritten + (accepted w.limits records).length }) := by
  induction records generalizing w with
  | nil => simp [appendAll, accepted]
  | cons rec records ih =>
      cases fits : rec.refusal? w.limits with
      | none =>
          have rest := ih (w := (w.put rec.encode).counted) unbounded
          rw [appendAll_cons_of_ok (append_of_fits fits unbounded), rest]
          simp only [Writer.put, Writer.counted, accepted_cons_of_fits fits, List.map_cons, verdict,
            fits, List.flatMap_cons, List.append_assoc, List.length_cons, Nat.add_assoc,
            Nat.add_comm 1]
      | some e =>
          rw [appendAll_cons_of_error (append_of_refusal fits), ih unbounded,
            accepted_cons_of_refusal fits, List.map_cons, verdict, fits]

theorem session_of_file {path name : String} (place : Path.place path = .file name)
    (d : Directory) (mode : OpenMode) (records : List Record) :
    session d mode path records =
      .ok ((records.map (verdict {}), (accepted {} records).length),
        d.put name (opened d mode name ++ (accepted {} records).flatMap Record.encode)) := by
  rw [session, place]
  simp [appendAll_eq]

end Chronicle.Loop
