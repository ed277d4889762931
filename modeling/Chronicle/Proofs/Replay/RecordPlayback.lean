import Chronicle.Proofs.Loop.Appending
import Chronicle.Proofs.Loop.Stream
import Chronicle.Proofs.Walk.RoundTrip
import Chronicle.Replay.Playback
import Chronicle.Replay.Recorder

/-!
# What was recorded plays back

A stream that a recorder wrote holds the records of the captures that succeeded
and nothing of those that failed.  Playback under the same definitions and
limits returns one frame for each, in order, and then the end of the stream.
-/

namespace Chronicle.Replay

open Chronicle.Loop Success

variable {r : Registry} {w : WalkLimits} {c : LoopLimits} {type : Ty}

/-! ## Captures in a row -/

namespace Recorder

def fresh (r : Registry) (w : WalkLimits) (c : LoopLimits) (capacity : Nat) : Recorder where
  registry := r
  writer := { limits := c }
  history := .ofCapacity capacity
  limits := w

def captures : List (String × Graph) → Recorder → List (Except RecordError Record) × Recorder
  | [], recorder => ([], recorder)
  | (comment, g) :: rest, recorder =>
      match recorder.capture comment g with
      | .ok rec recorder' =>
          (.ok rec :: (captures rest recorder').1, (captures rest recorder').2)
      | .error e recorder' =>
          (.error e :: (captures rest recorder').1, (captures rest recorder').2)

theorem captures_of_ok {recorder recorder' : Recorder} {comment : String} {g : Graph} {rec : Record}
    (run : recorder.capture comment g = .ok rec recorder') (rest : List (String × Graph)) :
    captures ((comment, g) :: rest) recorder =
      (.ok rec :: (captures rest recorder').1, (captures rest recorder').2) := by
  rw [captures, run]

theorem captures_of_error {recorder recorder' : Recorder} {comment : String} {g : Graph}
    {e : RecordError} (run : recorder.capture comment g = .error e recorder')
    (rest : List (String × Graph)) : captures ((comment, g) :: rest) recorder =
      (.error e :: (captures rest recorder').1, (captures rest recorder').2) := by
  rw [captures, run]

end Recorder

def taken : List (String × Graph) → List (Except RecordError Record) → List (String × Graph)
  | call :: calls, .ok _ :: outcomes => call :: taken calls outcomes
  | _ :: calls, .error _ :: outcomes => taken calls outcomes
  | _, _ => []

def returned? : Except RecordError Record → Option Record
  | .ok rec => some rec
  | .error _ => none

/-! ## What a recorder writes -/

structure Recorder.Open (r : Registry) (w : WalkLimits) (c : LoopLimits) (recorder : Recorder) :
    Prop where
  registry_eq : recorder.registry = r
  limits_eq : recorder.limits = w
  writer_limits : recorder.writer.limits = c
  unbounded : recorder.writer.sink.capacity = none
  flushes : recorder.writer.sink.flushFails = false

/-- A record with the comment and the snapshot of a captured graph, made under
the definitions in force and within the limits. -/
structure Holds (r : Registry) (w : WalkLimits) (c : LoopLimits) (call : String × Graph)
    (rec : Record) : Prop where
  comment_eq : rec.comment = call.1
  fingerprint_eq : rec.fingerprint = r.fingerprint
  fits : rec.refusal? c = none
  payload_eq : ∃ counter next, r.snapshot { limits := w } call.2 counter = (.ok rec.payload, next)

namespace Recorder.Open

variable {recorder : Recorder} {comment : String} {g : Graph}

theorem fresh (r : Registry) (w : WalkLimits) (c : LoopLimits) (capacity : Nat) :
    (Recorder.fresh r w c capacity).Open r w c := ⟨rfl, rfl, rfl, rfl, rfl⟩

theorem counted (opened : recorder.Open r w c) (counter : Nat) :
    Open r w c { recorder with counter } := { opened with }

theorem capture_of_error (opened : recorder.Open r w c) {e : WalkError} {next : Nat}
    (snapshot : r.snapshot { limits := w } g recorder.counter = (.error e, next)) :
    recorder.capture comment g = .error (.walk e) { recorder with counter := next } := by
  obtain ⟨rfl, rfl, rfl, _, _⟩ := opened
  rw [capture, get_bind, snapshot]
  rfl

theorem capture_of_refusal (opened : recorder.Open r w c) {payload : Bytes} {next : Nat}
    (snapshot : r.snapshot { limits := w } g recorder.counter = (.ok payload, next)) {e : LoopError}
    (refused : Record.refusal? c ⟨comment, r.fingerprint, payload⟩ = some e) :
    recorder.capture comment g = .error (.loop e) { recorder with counter := next } := by
  obtain ⟨rfl, rfl, rfl, _, _⟩ := opened
  rw [capture, get_bind, snapshot]
  change record _ { recorder with counter := next } = _
  rw [record, append_of_refusal refused]

theorem capture_of_fits (opened : recorder.Open r w c) {payload : Bytes} {next : Nat}
    (snapshot : r.snapshot { limits := w } g recorder.counter = (.ok payload, next))
    (fits : Record.refusal? c ⟨comment, r.fingerprint, payload⟩ = none) :
    ∃ recorder', recorder.capture comment g = .ok ⟨comment, r.fingerprint, payload⟩ recorder' ∧
      recorder'.Open r w c ∧ recorder'.counter = next ∧
      recorder'.writer.sink.content = recorder.writer.sink.content ++
        Record.encode ⟨comment, r.fingerprint, payload⟩ := by
  obtain ⟨rfl, rfl, rfl, unbounded, flushes⟩ := opened
  have run : recorder.capture comment g =
      record ⟨comment, recorder.registry.fingerprint, payload⟩
        { recorder with counter := next } := by
    rw [capture, get_bind, snapshot]
    rfl
  rw [record, append_of_fits fits unbounded] at run
  exact ⟨_, run, ⟨rfl, rfl, rfl, unbounded, flushes⟩, rfl, rfl⟩

theorem capture_cases (opened : recorder.Open r w c) (comment : String) (g : Graph) :
    (∃ e recorder', recorder.capture comment g = .error e recorder' ∧ recorder'.Open r w c ∧
      recorder'.writer.sink.content = recorder.writer.sink.content) ∨
    ∃ rec recorder', recorder.capture comment g = .ok rec recorder' ∧ recorder'.Open r w c ∧
      Holds r w c (comment, g) rec ∧
      recorder'.writer.sink.content = recorder.writer.sink.content ++ rec.encode := by
  rcases snapshot : r.snapshot { limits := w } g recorder.counter with ⟨outcome, next⟩
  cases outcome with
  | error e => exact .inl ⟨_, _, opened.capture_of_error snapshot, opened.counted next, rfl⟩
  | ok payload =>
      cases fits : Record.refusal? c ⟨comment, r.fingerprint, payload⟩ with
      | some e =>
          exact .inl ⟨_, _, opened.capture_of_refusal snapshot fits, opened.counted next, rfl⟩
      | none =>
          obtain ⟨recorder', run, opened', _, content⟩ := opened.capture_of_fits snapshot fits
          exact .inr ⟨_, recorder', run, opened', ⟨rfl, rfl, fits, _, _, snapshot⟩, content⟩

theorem captures (opened : recorder.Open r w c) (calls : List (String × Graph))
    {outcomes : List (Except RecordError Record)} {last : Recorder}
    (run : recorder.captures calls = (outcomes, last)) :
    last.Open r w c ∧
      List.Forall₂ (Holds r w c) (taken calls outcomes) (outcomes.filterMap returned?) ∧
      last.writer.sink.content = recorder.writer.sink.content ++
        (outcomes.filterMap returned?).flatMap Record.encode := by
  induction calls generalizing recorder outcomes with
  | nil =>
      obtain ⟨rfl, rfl⟩ := Prod.mk.inj run
      exact ⟨opened, .nil, (List.append_nil _).symm⟩
  | cons call calls ih =>
      obtain ⟨comment, g⟩ := call
      rcases opened.capture_cases comment g with
        ⟨e, next, step, opened', content⟩ | ⟨rec, next, step, opened', holds, content⟩
      · rw [captures_of_error step] at run
        obtain ⟨rfl, rfl⟩ := Prod.mk.inj run
        obtain ⟨closed, all, written⟩ := ih opened' rfl
        refine ⟨closed, all, ?_⟩
        rw [written, content]
        rfl
      · rw [captures_of_ok step] at run
        obtain ⟨rfl, rfl⟩ := Prod.mk.inj run
        obtain ⟨closed, all, written⟩ := ih opened' rfl
        refine ⟨closed, .cons holds all, ?_⟩
        rw [written, content, List.append_assoc]
        rfl

theorem flush_eq (opened : recorder.Open r w c) : recorder.flush = .ok () recorder := by
  have flushed : Sink.flush recorder.writer.sink = .ok () recorder.writer.sink := by
    rw [Sink.flush, get_bind, opened.flushes]
    rfl
  rw [flush, Writer.flush, Writer.onSink, flushed]

end Recorder.Open

/-! ## What playback returns -/

namespace Playback

def calls (type : Ty) : Nat → Playback → List (Except PlaybackError (Option Frame)) × Playback
  | 0, p => ([], p)
  | n + 1, p =>
      match p.nextFrame type with
      | .ok frame p' => (.ok frame :: (calls type n p').1, (calls type n p').2)
      | .error e p' => (.error e :: (calls type n p').1, (calls type n p').2)

theorem calls_of_ok {p p' : Playback} {frame : Option Frame}
    (run : p.nextFrame type = .ok frame p') (n : Nat) :
    p.calls type (n + 1) = (.ok frame :: (p'.calls type n).1, (p'.calls type n).2) := by
  rw [calls, run]

structure Before (r : Registry) (w : WalkLimits) (c : LoopLimits) (bs : Bytes) (p : Playback) :
    Prop where
  registry_eq : p.registry = r
  limits_eq : p.limits = w
  reader_limits : p.reader.limits = c
  active : p.reader.Active
  plain : p.reader.source.Plain
  run_eq : p.reader.source.run = bs

variable {p : Playback} {bs : Bytes} {rec : Record}

theorem nextFrame_of_end (before : p.Before r w c []) :
    ∃ p', p.nextFrame type = .ok none p' := by
  have ended := Reader.next_of_ended before.active before.plain before.run_eq
  refine ⟨{ p with reader := { p.reader with state := .finished } }, ?_⟩
  have step : p.nextRecord =
      .ok none { p with reader := { p.reader with state := .finished } } := by
    rw [nextRecord, ended]
  rw [nextFrame, get_bind, recordBound, nextFrameFrom, bind_of_ok step]
  rfl

theorem nextFrame_of_record (before : p.Before r w c (rec.encode ++ bs))
    (window : c.maxComment + 2 < leBound 8) (fits : rec.refusal? c = none)
    (current : rec.fingerprint = r.fingerprint) {g : Graph}
    (restored : r.restore { limits := w } type rec.payload = .ok g) :
    ∃ p', p.nextFrame type = .ok (some ⟨p.index, rec.comment, g⟩) p' ∧
      p'.Before r w c bs ∧ p'.index = p.index + 1 := by
  obtain ⟨rfl, rfl, rfl, active, plain, start⟩ := before
  have read := (Reader.next_eq_some active window).mpr ⟨fits, ⟨bs, start⟩, rfl⟩
  let p' : Playback := { p with
    reader := (p.reader.behind rec.encode.length).counted, index := p.index + 1 }
  have step : p.nextRecord = .ok (some (p.index, rec)) p' := by rw [nextRecord, read]
  have verified : rec.verify p.registry.fingerprint = .ok () := by
    rw [Record.verify, Record.isCurrent, current, decide_eq_true rfl]
    rfl
  have framed : p'.frame type p.index rec = .ok ⟨p.index, rec.comment, g⟩ p' := by
    rw [frame, get_bind, restored]
    rfl
  refine ⟨p', ?_,
    ⟨rfl, rfl, rfl, Reader.active_counted _, ⟨plain.later_eq, plain.fails_eq⟩, ?_⟩, rfl⟩
  · rw [nextFrame, get_bind, recordBound, nextFrameFrom, bind_of_ok step]
    simp only
    rw [get_bind, verified]
    exact bind_of_ok framed _
  · change (p.reader.behind rec.encode.length).source.run = bs
    simp [Reader.behind, start]

end Playback

structure Frame.Shows (call : String × Graph) (frame : Frame) : Prop where
  comment_eq : frame.comment = call.1
  isomorphic : ∃ f, call.2.Isomorphism frame.graph f

theorem Playback.calls_of_records {records : List Record} {captured : List (String × Graph)}
    (tags : r.tags.length ≤ leBound 4) (window : c.maxComment + 2 < leBound 8)
    (holds : List.Forall₂ (Holds r w c) captured records)
    (typed : ∀ call ∈ captured, call.2.type = type)
    (faithful : ∀ call ∈ captured,
      r.Faithful { limits := w } call.2.heap call.2.type call.2.root)
    {p : Playback} (before : p.Before r w c (records.flatMap Record.encode)) :
    ∃ frames last, p.calls type (frames.length + 1) =
        (frames.map (fun frame => .ok (some frame)) ++ [.ok none], last) ∧
      List.Forall₂ Frame.Shows captured frames ∧
      frames.map Frame.index = List.range' p.index frames.length := by
  induction holds generalizing p with
  | nil =>
      obtain ⟨p', ended⟩ : ∃ p', p.nextFrame type = .ok none p' := nextFrame_of_end before
      exact ⟨[], p', calls_of_ok ended 0, .nil, rfl⟩
  | @cons call rec captured records held _ ih =>
      obtain ⟨typed_head, typed⟩ := List.forall_mem_cons.mp typed
      obtain ⟨faithful_head, faithful⟩ := List.forall_mem_cons.mp faithful
      obtain ⟨counter, next, snapshot⟩ := held.payload_eq
      obtain ⟨s, written, payload, _⟩ := Registry.snapshot_eq_ok.mp snapshot
      have form := Registry.written_of_writeGraph faithful_head written
      obtain ⟨g, f, restored, isomorphism⟩ := form.restore tags faithful_head
      rw [payload, typed_head] at restored
      obtain ⟨p', first, before', index⟩ :=
        nextFrame_of_record before window held.fits held.fingerprint_eq restored
      obtain ⟨frames, last, run, shown, indices⟩ := ih typed faithful before'
      refine ⟨⟨p.index, rec.comment, g⟩ :: frames, last, ?_,
        .cons ⟨held.comment_eq, f, isomorphism⟩ shown, ?_⟩
      · rw [List.length_cons, calls_of_ok first, run]
        rfl
      · rw [List.map_cons, indices, index]
        rfl

/-- Playing the stream of a recorder back yields one frame for each capture that
succeeded, in order and numbered from nought, with its comment and a graph
isomorphic to the one captured, and then the end of the stream.  The stream
holds the records of those captures and nothing else. -/
theorem playback_of_captures (tags : r.tags.length ≤ leBound 4)
    (window : c.maxComment + 2 < leBound 8) (capacity : Nat) (policy : StalePolicy)
    {calls : List (String × Graph)} {outcomes : List (Except RecordError Record)}
    {recorder : Recorder}
    (captured : (Recorder.fresh r w c capacity).captures calls = (outcomes, recorder))
    (typed : ∀ call ∈ taken calls outcomes, call.2.type = type)
    (faithful : ∀ call ∈ taken calls outcomes,
      r.Faithful { limits := w } call.2.heap call.2.type call.2.root) :
    ∃ done, recorder.flush = .ok () done ∧
      done.writer.sink.content = (outcomes.filterMap returned?).flatMap Record.encode ∧
      ∃ frames last,
        Playback.calls type (frames.length + 1)
            { registry := r, reader := .ofBytes done.writer.sink.content c, policy, limits := w } =
          (frames.map (fun frame => .ok (some frame)) ++ [.ok none], last) ∧
        List.Forall₂ Frame.Shows (taken calls outcomes) frames ∧
        frames.map Frame.index = List.range frames.length := by
  obtain ⟨closed, holds, content⟩ := (Recorder.Open.fresh r w c capacity).captures calls captured
  refine ⟨recorder, closed.flush_eq, content, ?_⟩
  simp only [content, List.range_eq_range']
  exact Playback.calls_of_records tags window holds typed faithful
    ⟨rfl, rfl, rfl, Reader.active_ofBytes _ _, ⟨rfl, rfl⟩, rfl⟩

def knotCalls : List (String × Graph) := [("a", knotGraph), ("\x00", knotGraph), ("b", knotGraph)]

def knotRecord (comment : String) : Record := ⟨comment, knotRegistry.fingerprint, knotOctets⟩

theorem captures_knot : ∃ recorder, (Recorder.fresh knotRegistry {} {} 2).captures knotCalls =
    ([.ok (knotRecord "a"), .error (.loop (.invalidComment .zeroOctet)), .ok (knotRecord "b")],
      recorder) := by
  have step : ∀ (recorder : Recorder) (comment : String), recorder.Open knotRegistry {} {} →
      recorder.counter = 0 → (knotRecord comment).refusal? {} = none →
      ∃ recorder', recorder.capture comment knotGraph = .ok (knotRecord comment) recorder' ∧
        recorder'.Open knotRegistry {} {} ∧ recorder'.counter = 0 := by
    intro recorder comment opened counter fits
    have snapshot := knot_snapshot
    rw [← counter] at snapshot
    obtain ⟨recorder', run, opened', counter', _⟩ := opened.capture_of_fits snapshot fits
    exact ⟨recorder', run, opened', counter'.trans counter⟩
  obtain ⟨recorder₁, first, opened₁, counter₁⟩ := step _ "a" (.fresh knotRegistry {} {} 2) rfl rfl
  have snapshot := knot_snapshot
  rw [← counter₁] at snapshot
  have refused : (knotRecord "\x00").refusal? {} = some (.invalidComment .zeroOctet) := rfl
  have second := opened₁.capture_of_refusal snapshot refused
  obtain ⟨recorder₃, third, _, _⟩ := step _ "b" (opened₁.counted _) counter₁ rfl
  refine ⟨recorder₃, ?_⟩
  rw [knotCalls, Recorder.captures_of_ok first, Recorder.captures_of_error second,
    Recorder.captures_of_ok third]
  rfl

theorem playback_of_captures_knot :
    knotRegistry.tags.length ≤ leBound 4 ∧ ({} : LoopLimits).maxComment + 2 < leBound 8 ∧
      knotRegistry.Faithful {} knotGraph.heap knotGraph.type knotGraph.root ∧
      ∃ recorder done frame frame' last,
        (Recorder.fresh knotRegistry {} {} 2).captures knotCalls =
          ([.ok (knotRecord "a"), .error (.loop (.invalidComment .zeroOctet)),
            .ok (knotRecord "b")], recorder) ∧
        recorder.flush = .ok () done ∧
        done.writer.sink.content = (knotRecord "a").encode ++ (knotRecord "b").encode ∧
        Playback.calls knot 3
            { registry := knotRegistry, reader := .ofBytes done.writer.sink.content {} } =
          ([.ok (some frame), .ok (some frame'), .ok none], last) ∧
        Frame.Shows ("a", knotGraph) frame ∧ Frame.Shows ("b", knotGraph) frame' ∧
        frame.index = 0 ∧ frame'.index = 1 := by
  have tags : knotRegistry.tags.length ≤ leBound 4 := by decide
  have window : ({} : LoopLimits).maxComment + 2 < leBound 8 := by decide
  refine ⟨tags, window, knot_faithful, ?_⟩
  obtain ⟨recorder, captured⟩ := captures_knot
  have typed : ∀ call ∈ [("a", knotGraph), ("b", knotGraph)], call.2.type = knot := by
    simp [knotGraph]
  have faithful : ∀ call ∈ [("a", knotGraph), ("b", knotGraph)],
      knotRegistry.Faithful {} call.2.heap call.2.type call.2.root :=
    List.forall_mem_cons.mpr ⟨knot_faithful, List.forall_mem_cons.mpr ⟨knot_faithful, by simp⟩⟩
  obtain ⟨done, flushed, content, frames, last, run, shown, indices⟩ :=
    playback_of_captures tags window 2 .reject captured typed faithful
  cases shown with
  | @cons _ frame _ _ first shown =>
      cases shown with
      | @cons _ frame' _ _ second shown =>
          cases shown
          injection indices with index indices
          injection indices with index' _
          refine ⟨recorder, done, frame, frame', last, captured, flushed, ?_, run, first, second,
            index, index'⟩
          rw [content, ← List.append_nil (knotRecord "b").encode]
          rfl

end Chronicle.Replay
