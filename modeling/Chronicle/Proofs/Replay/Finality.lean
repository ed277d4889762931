import Chronicle.Proofs.Loop.Finality
import Chronicle.Proofs.Replay.RecordPlayback

/-!
# Errors of playback

A call for a frame takes records from the reader until one is not passed over.
So an error of the reader is the end of playback whenever it is the end of
reading.  The one error after which both go on is a source that failed where a
record would start.
-/

namespace Chronicle.Replay

open Chronicle.Loop Success

abbrev Outcome := Except PlaybackError (Option Frame)

/-! ## One call -/

def StalePolicy.passes (policy : StalePolicy) (r : Registry) (rec : Record) : Bool :=
  policy = .skip && !rec.isCurrent r.fingerprint

def judge (r : Registry) (w : WalkLimits) (type : Ty) (index : Nat) (rec : Record) : Outcome :=
  match rec.verify r.fingerprint with
  | .error stale => .error (.stale index stale)
  | .ok _ =>
      match r.restore { limits := w } type rec.payload with
      | .ok g => .ok (some ⟨index, rec.comment, g⟩)
      | .error e => .error (.walk index e)

namespace Playback

variable {type : Ty} {p p' : Playback} {e : LoopError}

def play (type : Ty) (p : Playback) : Outcome × Playback :=
  match p.nextFrame type with
  | .ok found p' => (.ok found, p')
  | .error e p' => (.error e, p')

def seek (type : Ty) (fuel : Nat) (p : Playback) : Outcome × Playback :=
  match nextFrameFrom type fuel p with
  | .ok found p' => (.ok found, p')
  | .error e p' => (.error e, p')

theorem play_eq_seek (type : Ty) (p : Playback) : p.play type = p.seek type (recordBound p) := by
  rw [play, nextFrame, get_bind, seek]

def plays : List Ty → Playback → List Outcome × Playback
  | [], p => ([], p)
  | type :: types, p =>
      ((p.play type).1 :: (plays types (p.play type).2).1, (plays types (p.play type).2).2)

def Refuses (p : Playback) : Prop :=
  ∀ types, p.plays types = (types.map fun _ => .error (.loop .readerFailed), p)

theorem frame_eq (type : Ty) (index : Nat) (rec : Record) (p : Playback) : frame type index rec p =
    match p.registry.restore { limits := p.limits } type rec.payload with
    | .ok g => .ok ⟨index, rec.comment, g⟩ p
    | .error e => .error (.walk index e) p := by
  rw [frame, get_bind]
  cases p.registry.restore { limits := p.limits } type rec.payload <;> rfl

theorem seek_succ (type : Ty) (fuel : Nat) (p : Playback) : p.seek type (fuel + 1) =
    match p.reader.next with
    | .error e reader => (.error (.loop e), { p with reader })
    | .ok none reader => (.ok none, { p with reader })
    | .ok (some rec) reader =>
        if p.policy.passes p.registry rec then
          seek type fuel { p with reader, index := p.index + 1, skipped := p.skipped + 1 }
        else (judge p.registry p.limits type p.index rec,
          { p with reader, index := p.index + 1 }) := by
  unfold seek
  rw [nextFrameFrom]
  cases read : p.reader.next with
  | error e reader =>
      have step : p.nextRecord = .error (.loop e) { p with reader } := by rw [nextRecord, read]
      rw [bind_of_error step]
  | ok found reader =>
      cases found with
      | none =>
          have step : p.nextRecord = .ok none { p with reader } := by rw [nextRecord, read]
          rw [bind_of_ok step]
          rfl
      | some rec =>
          have step : p.nextRecord = .ok (some (p.index, rec))
              { p with reader, index := p.index + 1 } := by rw [nextRecord, read]
          rw [bind_of_ok step]
          simp only [get_bind]
          by_cases current : rec.isCurrent p.registry.fingerprint = true
          · have verified : rec.verify p.registry.fingerprint = .ok () := by
              rw [Record.verify, if_pos current]
            simp only [verified, judge, StalePolicy.passes, current, Bool.not_true, Bool.and_false,
              Bool.false_eq_true, ↓reduceIte]
            have framed := frame_eq type p.index rec { p with reader, index := p.index + 1 }
            cases restored : p.registry.restore { limits := p.limits } type rec.payload with
            | ok g =>
                simp only [restored] at framed
                rw [bind_of_ok framed]
                rfl
            | error e =>
                simp only [restored] at framed
                rw [bind_of_error framed]
          · have refused : rec.verify p.registry.fingerprint =
                .error ⟨rec.fingerprint, p.registry.fingerprint⟩ := by
              rw [Record.verify, if_neg current]
            cases p.policy with
            | reject =>
                simp only [refused, judge, StalePolicy.passes, reduceCtorEq, decide_false,
                  Bool.false_and, Bool.false_eq_true, ↓reduceIte]
                rfl
            | skip =>
                simp only [refused, StalePolicy.passes, current, decide_true, Bool.not_false,
                  Bool.and_self, ↓reduceIte]
                rfl

theorem reader_of_seek_error {fuel : Nat} (outside : p.reader.state ≠ .midRecord)
    (sought : p.seek type fuel = (.error (.loop e), p')) :
    p'.reader.state = .failed ∨ e = .io ∧ p'.reader.state = .atBoundary := by
  induction fuel generalizing p with
  | zero => cases sought
  | succ fuel ih =>
      rw [seek_succ] at sought
      cases read : p.reader.next with
      | error e' reader =>
          simp only [read, Prod.mk.injEq, Except.error.injEq, PlaybackError.loop.injEq] at sought
          obtain ⟨rfl, rfl⟩ := sought
          exact Reader.state_of_next_error outside read
      | ok found reader =>
          cases found with
          | none => simp [read] at sought
          | some rec =>
              have boundary := Reader.state_of_next_some read
              simp only [read] at sought
              split at sought
              · exact ih (by simp [boundary]) sought
              · unfold judge at sought
                split at sought
                · simp at sought
                · split at sought <;> simp at sought

/-! ## Calls in a row -/

theorem play_of_failed (failed : p.reader.state = .failed) :
    p.play type = (.error (.loop .readerFailed), p) := by
  rw [play_eq_seek, recordBound, seek_succ, Reader.next_of_failed failed]

theorem refuses_of_failed (failed : p.reader.state = .failed) : p.Refuses := by
  intro types
  induction types with
  | nil => rfl
  | cons type types ih => simp only [plays, play_of_failed failed, ih, List.map_cons]

theorem refuses_iff (outside : p.reader.state ≠ .midRecord) :
    p.Refuses ↔ p.reader.state = .failed := by
  refine ⟨fun refuses => ?_, refuses_of_failed⟩
  have single := refuses [.unit]
  simp only [plays, List.map_cons, List.map_nil, Prod.mk.injEq, List.cons.injEq,
    and_true] at single
  have again : p.play .unit = (.error (.loop .readerFailed), p) := Prod.ext single.1 single.2
  rw [play_eq_seek] at again
  rcases reader_of_seek_error outside again with failed | ⟨other, -⟩
  · exact failed
  · cases other

theorem seek_outside (type : Ty) (fuel : Nat) (outside : p.reader.state ≠ .midRecord) :
    (p.seek type fuel).2.reader.state ≠ .midRecord := by
  induction fuel generalizing p with
  | zero => exact outside
  | succ fuel ih =>
      have after := Reader.ask_outside outside .next
      rw [seek_succ]
      cases read : p.reader.next with
      | error e reader => simpa [Reader.ask, read] using after
      | ok found reader =>
          simp only [Reader.ask, read] at after
          cases found with
          | none => exact after
          | some rec =>
              simp only
              split
              · exact ih after
              · exact after

theorem play_outside (type : Ty) (outside : p.reader.state ≠ .midRecord) :
    (p.play type).2.reader.state ≠ .midRecord := by
  rw [play_eq_seek]
  exact seek_outside type (recordBound p) outside

theorem plays_outside (outside : p.reader.state ≠ .midRecord) (types : List Ty) :
    (p.plays types).2.reader.state ≠ .midRecord := by
  induction types generalizing p with
  | nil => exact outside
  | cons type types ih => exact ih (play_outside type outside)

end Playback

/-! ## Final errors -/

/-- Whatever the source and the calls before, a reader is never inside a record
between calls, and an error is the end of reading exactly if the source did not
fail where the next record would start.  An error of the reader is the end of
playback exactly if the reader has failed, and otherwise it is such a failure of
the source. -/
theorem error_final_iff (source : Source) (limits : LoopLimits) :
    (∀ calls, (Reader.asks calls { source, limits }).2.state ≠ .midRecord) ∧
    (∀ calls call e r, (Reader.asks calls { source, limits }).2.ask call = (some (.error e), r) →
      (r.Refuses ↔ ¬ (Reader.asks calls { source, limits }).2.Stalls)) ∧
    ∀ registry policy w types type e p,
      (Playback.plays types
        { registry, reader := { source, limits }, policy, limits := w }).2.play type =
          (.error (.loop e), p) →
      (p.Refuses ↔ p.reader.state = .failed) ∧
      (p.reader.state = .failed ∨ e = .io ∧ p.reader.state = .atBoundary) := by
  have outside : ({ source, limits } : Reader).state ≠ .midRecord := by simp
  refine ⟨Reader.asks_outside outside, fun calls call e r => Reader.refuses_iff_of_error, ?_⟩
  intro registry policy w types type e p played
  have before := Playback.plays_outside
    (p := { registry, reader := { source, limits }, policy, limits := w }) outside types
  have after := Playback.play_outside type before
  rw [played] at after
  rw [Playback.play_eq_seek] at played
  exact ⟨Playback.refuses_iff after, Playback.reader_of_seek_error before played⟩

/-- A source that fails once before a record, and one without a record. -/
def stallingSource : Source := { run := [], later := [(knotRecord "a").encode] }

def garbledSource : Source := { run := [0, 0, 0, 0] }

theorem error_final_iff_garbled :
    (∃ r, Reader.ask { source := garbledSource } .next =
        (some (.error (.badMagic [0, 0, 0, 0])), r) ∧ r.Refuses) ∧
    (∃ r, Reader.ask { source := stallingSource } .step = (some (.error .io), r) ∧
        ¬ r.Refuses) ∧
    ∃ p, Playback.play knot { registry := knotRegistry, reader := { source := garbledSource } } =
        (.error (.loop (.badMagic [0, 0, 0, 0])), p) ∧ p.Refuses := by
  refine ⟨⟨_, rfl, ?_⟩, ⟨_, rfl, ?_⟩, ⟨_, rfl, ?_⟩⟩
  · refine ((error_final_iff garbledSource {}).2.1 [] .next _ _ rfl).mpr fun stalls => ?_
    exact absurd stalls.failed (by decide)
  · intro refuses
    refine ((error_final_iff stallingSource {}).2.1 [] .step _ _ rfl).mp refuses ⟨?_, rfl⟩
    exact ⟨nofun, nofun⟩
  · exact ((error_final_iff garbledSource {}).2.2 knotRegistry .reject {} [] knot _ _ rfl).1.mpr rfl

/-- A source that keeps failing where a record would start makes an iteration
report one error after the other, and after a source that failed only once the
record is delivered. -/
theorem errors_not_final :
    Reader.asks [.step, .step] { source := { run := [], fails := true } } =
      ([some (.error .io), some (.error .io)], { source := { run := [], fails := true } }) ∧
    ∃ frame p, Playback.plays [knot, knot]
        { registry := knotRegistry, reader := { source := stallingSource } } =
      ([.error (.loop .io), .ok (some frame)], p) := by
  refine ⟨rfl, ?_⟩
  obtain ⟨g, _, restored, _⟩ : ∃ g f, knotRegistry.restore {} knot knotOctets = .ok g ∧
      knotGraph.Isomorphism g f := knot_written.restore (by decide) knot_faithful
  have stalled : Playback.play knot
      { registry := knotRegistry, reader := { source := stallingSource } } =
      (.error (.loop .io),
        { registry := knotRegistry, reader := .ofBytes (knotRecord "a").encode {} }) := rfl
  have read :=
    (Reader.next_eq_some (Reader.active_ofBytes (knotRecord "a").encode {}) (by decide)).mpr
    ⟨by decide, ⟨[], (List.append_nil _).symm⟩, rfl⟩
  have judged : judge knotRegistry {} knot 0 (knotRecord "a") = .ok (some ⟨0, "a", g⟩) := by
    have current : (knotRecord "a").verify knotRegistry.fingerprint = .ok () := by
      simp [Record.verify, Record.isCurrent, knotRecord]
    rw [judge, current]
    simp only [knotRecord, restored]
  have delivered : (Playback.play knot
      { registry := knotRegistry, reader := .ofBytes (knotRecord "a").encode {} }).1 =
      .ok (some ⟨0, "a", g⟩) := by
    rw [← judged, Playback.play_eq_seek, Playback.recordBound, Playback.seek_succ, read]
    rfl
  refine ⟨⟨0, "a", g⟩, (Playback.play knot
    { registry := knotRegistry, reader := .ofBytes (knotRecord "a").encode {} }).2, ?_⟩
  simp only [Playback.plays, stalled, delivered]

end Chronicle.Replay
