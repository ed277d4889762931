import Chronicle.Proofs.Loop.Window
import Chronicle.Proofs.Replay.RecordPlayback

/-!
# The history and the stream agree

A recorder remembers a record exactly when the stream took it.  So whatever calls
are made of it, and whatever becomes of the sink in between, its history shows the
last of the records it returned, and both of its counts are the number of those.
-/

namespace Chronicle.Replay

open Chronicle.Loop Success

/-! ## Records returned -/

theorem filterMap_returned?_ok (rec : Record) (outcomes : List (Except RecordError Record)) :
    (Except.ok rec :: outcomes).filterMap returned? = rec :: outcomes.filterMap returned? := rfl

theorem filterMap_returned?_error (e : RecordError) (outcomes : List (Except RecordError Record)) :
    (Except.error e :: outcomes).filterMap returned? = outcomes.filterMap returned? := rfl

theorem length_filterMap_returned? (outcomes : List (Except RecordError Record)) :
    (outcomes.filterMap returned?).length = outcomes.countP Except.isOk := by
  induction outcomes with
  | nil => rfl
  | cons outcome outcomes ih =>
      cases outcome with
      | ok rec => rw [filterMap_returned?_ok, List.length_cons, ih, List.countP_cons_of_pos rfl]
      | error e => rw [filterMap_returned?_error, ih, List.countP_cons_of_neg Bool.false_ne_true]

/-! ## Calls -/

inductive Recorder.Call where
  | capture (comment : String) (g : Graph)
  | record (rec : Record)

def Recorder.Call.run : Recorder.Call → Recording Record
  | .capture comment g => Recorder.capture comment g
  | .record rec => Recorder.record rec

/-- A call, and what becomes of the sink before it: it may be drained, filled or
left alone. -/
structure Request where
  befalls : Sink → Sink
  call : Recorder.Call

namespace Recorder

variable {recorder next : Recorder} {rec : Record} {taken : List Record} {capacity : Nat}

def before (recorder : Recorder) (request : Request) : Recorder :=
  { recorder with writer := { recorder.writer with sink := request.befalls recorder.writer.sink } }

def serve : List Request → Recorder → List (Except RecordError Record) × Recorder
  | [], recorder => ([], recorder)
  | request :: requests, recorder =>
      match request.call.run (recorder.before request) with
      | .ok rec next => (.ok rec :: (serve requests next).1, (serve requests next).2)
      | .error e next => (.error e :: (serve requests next).1, (serve requests next).2)

theorem serve_cons_of_ok {request : Request}
    (run : request.call.run (recorder.before request) = .ok rec next) (requests : List Request) :
    serve (request :: requests) recorder =
      (.ok rec :: (serve requests next).1, (serve requests next).2) := by
  rw [serve, run]

theorem serve_cons_of_error {request : Request} {e : RecordError}
    (run : request.call.run (recorder.before request) = .error e next) (requests : List Request) :
    serve (request :: requests) recorder =
      (.error e :: (serve requests next).1, (serve requests next).2) := by
  rw [serve, run]

theorem length_serve (requests : List Request) (recorder : Recorder) :
    (recorder.serve requests).1.length = requests.length := by
  induction requests generalizing recorder with
  | nil => rfl
  | cons request requests ih =>
      cases run : request.call.run (recorder.before request) with
      | ok rec next => rw [serve_cons_of_ok run, List.length_cons, ih, List.length_cons]
      | error e next => rw [serve_cons_of_error run, List.length_cons, ih, List.length_cons]

/-! ## What one call does -/

def remembering (recorder : Recorder) (rec : Record) : Recorder :=
  { recorder with
    writer := (recorder.writer.put rec.encode).counted
    history := recorder.history.push rec }

theorem record_cases (recorder : Recorder) (rec : Record) :
    record rec recorder = .ok rec (recorder.remembering rec) ∨ ∃ e sink, record rec recorder =
      .error (.loop e) { recorder with writer := { recorder.writer with sink } } := by
  rcases append_cases recorder.writer rec with run | ⟨e, sink, run⟩
  · exact .inl (by rw [record, run]; rfl)
  · exact .inr ⟨e, sink, by rw [record, run]⟩

theorem capture_cases (recorder : Recorder) (comment : String) (g : Graph) :
    (∃ e counter, capture comment g recorder = .error (.walk e) { recorder with counter }) ∨
      ∃ rec counter, capture comment g recorder = record rec { recorder with counter } := by
  rcases walked : recorder.registry.snapshot { limits := recorder.limits } g recorder.counter with
    ⟨outcome, counter⟩
  cases outcome with
  | error e =>
      refine .inl ⟨e, counter, ?_⟩
      rw [capture, get_bind, walked]
      rfl
  | ok payload =>
      refine .inr ⟨⟨comment, recorder.registry.fingerprint, payload⟩, counter, ?_⟩
      rw [capture, get_bind, walked]
      rfl

/-- A call returns a record that the sink took and the history holds, or it fails
and at most the sink and the running number have changed. -/
theorem run_cases (recorder : Recorder) (call : Call) :
    (∃ rec counter, call.run recorder = .ok rec (remembering { recorder with counter } rec)) ∨
      ∃ e sink counter, call.run recorder =
        .error e { recorder with writer := { recorder.writer with sink }, counter } := by
  cases call with
  | record rec =>
      rcases record_cases recorder rec with run | ⟨e, sink, run⟩
      · exact .inl ⟨rec, recorder.counter, run⟩
      · exact .inr ⟨.loop e, sink, recorder.counter, run⟩
  | capture comment g =>
      rcases capture_cases recorder comment g with ⟨e, counter, run⟩ | ⟨rec, counter, walked⟩
      · exact .inr ⟨.walk e, recorder.writer.sink, counter, run⟩
      · rcases record_cases { recorder with counter } rec with run | ⟨e, sink, run⟩
        · exact .inl ⟨rec, counter, walked.trans run⟩
        · exact .inr ⟨.loop e, sink, counter, walked.trans run⟩

theorem unchanged_of_error {call : Call} {e : RecordError}
    (run : call.run recorder = .error e next) :
    next.history = recorder.history ∧
      next.writer.recordsWritten = recorder.writer.recordsWritten := by
  rcases recorder.run_cases call with ⟨rec, counter, taken⟩ | ⟨e', sink, counter, failed⟩
  · rw [taken] at run
    cases run
  · rw [failed] at run
    cases run
    exact ⟨rfl, rfl⟩

/-! ## Runs -/

structure Agrees (capacity : Nat) (taken : List Record) (recorder : Recorder) : Prop where
  capacity_eq : recorder.history.capacity = max capacity 1
  window : recorder.history.Window taken
  totalPushed_eq : recorder.history.totalPushed = taken.length
  recordsWritten_eq : recorder.writer.recordsWritten = taken.length

namespace Agrees

theorem remembering (agrees : Agrees capacity taken recorder) (rec : Record) :
    Agrees capacity (taken ++ [rec]) (recorder.remembering rec) where
  capacity_eq := (Ring.capacity_push _ _).trans agrees.capacity_eq
  window := agrees.window.push rec
  totalPushed_eq := by
    rw [List.length_append, ← agrees.totalPushed_eq]
    exact Ring.totalPushed_push _ _
  recordsWritten_eq := by
    rw [List.length_append, ← agrees.recordsWritten_eq]
    rfl

theorem serve (agrees : Agrees capacity taken recorder) (requests : List Request) :
    Agrees capacity (taken ++ (recorder.serve requests).1.filterMap returned?)
      (recorder.serve requests).2 := by
  induction requests generalizing recorder taken with
  | nil => simpa [Recorder.serve] using agrees
  | cons request requests ih =>
      rcases run_cases (recorder.before request) request.call with
        ⟨rec, counter, run⟩ | ⟨e, sink, counter, run⟩
      · have begun : Agrees capacity taken { recorder.before request with counter } :=
          { agrees with }
        rw [serve_cons_of_ok run, filterMap_returned?_ok, List.append_cons]
        exact ih (begun.remembering rec)
      · rw [serve_cons_of_error run, filterMap_returned?_error]
        exact ih { agrees with }

end Agrees

end Recorder

/-- Whatever calls are made of a recorder, before whatever sink: its history and its
writer count the calls that returned a record, the history shows the last of those
records that there is room for, and a call that fails changes none of this. -/
theorem history_of_calls (r : Registry) (w : WalkLimits) (c : LoopLimits) (capacity counter : Nat)
    (sink : Sink) (requests : List Request) :
    ∃ outcomes recorder,
      Recorder.serve requests
          { registry := r, writer := { sink, limits := c }, history := .ofCapacity capacity,
            limits := w, counter } = (outcomes, recorder) ∧
        outcomes.length = requests.length ∧
        recorder.history.totalPushed = outcomes.countP Except.isOk ∧
        recorder.writer.recordsWritten = outcomes.countP Except.isOk ∧
        recorder.history.capacity = max capacity 1 ∧
        recorder.history.toList = (outcomes.filterMap returned?).rtake (max capacity 1) ∧
        recorder.history.latest? = (outcomes.filterMap returned?).getLast? ∧
        ∀ (call : Recorder.Call) (before after : Recorder) (e : RecordError),
          call.run before = .error e after → after.history = before.history ∧
            after.writer.recordsWritten = before.writer.recordsWritten := by
  have begun : Recorder.Agrees capacity []
      { registry := r, writer := { sink, limits := c }, history := .ofCapacity capacity,
        limits := w, counter } :=
    ⟨Ring.capacity_ofCapacity _, .ofCapacity _, rfl, rfl⟩
  have agrees := begun.serve requests
  rw [List.nil_append] at agrees
  exact ⟨_, _, rfl, Recorder.length_serve _ _,
    agrees.totalPushed_eq.trans (length_filterMap_returned? _),
    agrees.recordsWritten_eq.trans (length_filterMap_returned? _), agrees.capacity_eq,
    agrees.window.toList_eq.trans (by rw [agrees.capacity_eq]), agrees.window.latest?_eq,
    fun _ _ _ _ => Recorder.unchanged_of_error⟩

open Record in
/-- Two slots keep the last two of three records; a fourth met a full sink. -/
example : (Recorder.serve
    [⟨id, .record sample⟩, ⟨id, .record { sample with comment := "b" }⟩,
      ⟨fun s => { s with capacity := some 0 }, .record { sample with comment := "c" }⟩,
      ⟨fun s => { s with capacity := none }, .record { sample with comment := "d" }⟩]
    (.fresh knotRegistry {} {} 2)).2.history.toList =
    [{ sample with comment := "b" }, { sample with comment := "d" }] := rfl

end Chronicle.Replay
