import Chronicle.Proofs.Loop.Stream

/-!
# Errors of a reader

A reader is asked for the next record directly or by a step of an iteration, in
any order.  Between calls it is never inside a record.  An error puts an end to
reading unless the source failed where the next record would start: that leaves
the reader at the boundary, where the next call goes on.
-/

namespace Chronicle.Loop

open Success

/-! ## Asking a reader -/

inductive Call where
  | next
  | step
  deriving DecidableEq, Repr

namespace Reader

abbrev Answer := Option (Except LoopError Record)

def ask (r : Reader) : Call → Answer × Reader
  | .next =>
      match r.next with
      | .ok found r' => (found.map .ok, r')
      | .error e r' => (some (.error e), r')
  | .step => r.step

def asks : List Call → Reader → List Answer × Reader
  | [], r => ([], r)
  | c :: cs, r => ((r.ask c).1 :: (asks cs (r.ask c).2).1, (asks cs (r.ask c).2).2)

def refusal : Call → Answer
  | .next => some (.error .readerFailed)
  | .step => none

def Refuses (r : Reader) : Prop := ∀ cs, r.asks cs = (cs.map refusal, r)

structure Stalls (r : Reader) : Prop where
  active : r.Active
  failed : r.source.poll.1 = .failed

inductive Turn (r : Reader) : Answer → Reader → Prop
  | record {rec : Record} {r' : Reader} : r.source.poll.1 = .complete → r.body = .ok rec r' →
      Turn r (some (.ok rec)) r'
  | malformed {e : LoopError} {r' : Reader} : r.source.poll.1 = .complete →
      r.body = .error e r' → Turn r (some (.error e)) r'
  | ended : r.source.poll.1 = .ended →
      Turn r none { r with source := r.source.poll.2, state := .finished }
  | stalled : r.source.poll.1 = .failed →
      Turn r (some (.error .io)) { r with source := r.source.poll.2 }

variable {r r' : Reader}

theorem state_of_body_ok {rec : Record} (run : r.body = .ok rec r') : r'.state = .atBoundary := by
  obtain ⟨u, _, rfl⟩ := body_eq_ok.mp run
  rfl

theorem state_of_body_error {e : LoopError} (run : r.body = .error e r') :
    r'.state = .failed := by
  unfold body at run
  cases inner : record { r with state := .midRecord } with
  | ok rec u => simp [inner] at run
  | error e' u =>
      simp only [inner] at run
      cases run
      rfl

/-! ## One call -/

theorem ask_of_failed (failed : r.state = .failed) (c : Call) : r.ask c = (refusal c, r) := by
  cases c with
  | next => simp only [ask, next_of_failed failed, refusal]
  | step => simp only [ask, step, failed, refusal]

theorem ask_of_finished (finished : r.state = .finished) (c : Call) : r.ask c = (none, r) := by
  cases c with
  | next => simp only [ask, next_of_finished finished, Option.map_none]
  | step => simp only [ask, step, finished]

theorem ask_step_of_active (active : r.Active) : r.ask .step = r.ask .next := by
  obtain ⟨unfinished, unfailed⟩ := active
  cases state : r.state with
  | finished => contradiction
  | failed => contradiction
  | atBoundary | midRecord =>
      simp only [ask, step, state]
      cases r.next with
      | ok found r' => cases found <;> rfl
      | error e r' => rfl

theorem turn_of_active (active : r.Active) {c : Call} {answer : Answer}
    (asked : r.ask c = (answer, r')) : r.Turn answer r' := by
  have direct : r.Turn (r.ask .next).1 (r.ask .next).2 := by
    rcases polled : r.source.poll with ⟨supply, source⟩
    have supplied : r.source.poll.1 = supply := by rw [polled]
    simp only [ask, next_of_active active, polled]
    cases supply with
    | ended => simpa [polled] using Turn.ended supplied
    | failed => simpa [polled] using Turn.stalled supplied
    | complete =>
        cases run : r.body with
        | ok rec r' => exact .record supplied run
        | error e r' => exact .malformed supplied run
  have same : r.ask c = r.ask .next := by
    cases c with
    | next => rfl
    | step => exact ask_step_of_active active
  rw [← same, asked] at direct
  exact direct

theorem ask_outside (outside : r.state ≠ .midRecord) (c : Call) :
    (r.ask c).2.state ≠ .midRecord := by
  by_cases failed : r.state = .failed
  · simp [ask_of_failed failed, failed]
  by_cases finished : r.state = .finished
  · simp [ask_of_finished finished, finished]
  rcases asked : r.ask c with ⟨answer, r'⟩
  cases turn_of_active ⟨finished, failed⟩ asked with
  | record _ run => simp [state_of_body_ok run]
  | malformed _ run => simp [state_of_body_error run]
  | ended _ => simp
  | stalled _ => exact outside

theorem state_of_next_some {rec : Record} (read : r.next = .ok (some rec) r') :
    r'.state = .atBoundary := by
  by_cases failed : r.state = .failed
  · simp [next_of_failed failed] at read
  by_cases finished : r.state = .finished
  · simp [next_of_finished finished] at read
  have asked : r.ask .next = (some (.ok rec), r') := by simp [ask, read]
  cases turn_of_active ⟨finished, failed⟩ asked with
  | record _ run => exact state_of_body_ok run

theorem state_of_next_error {e : LoopError} (outside : r.state ≠ .midRecord)
    (read : r.next = .error e r') :
    r'.state = .failed ∨ e = .io ∧ r'.state = .atBoundary := by
  by_cases failed : r.state = .failed
  · rw [next_of_failed failed] at read
    cases read
    exact .inl failed
  by_cases finished : r.state = .finished
  · simp [next_of_finished finished] at read
  have asked : r.ask .next = (some (.error e), r') := by simp [ask, read]
  cases turn_of_active ⟨finished, failed⟩ asked with
  | malformed _ run => exact .inl (state_of_body_error run)
  | stalled _ =>
      refine .inr ⟨rfl, ?_⟩
      cases state : r.state <;> simp_all

/-! ## Calls in a row -/

theorem asks_outside (outside : r.state ≠ .midRecord) (cs : List Call) :
    (r.asks cs).2.state ≠ .midRecord := by
  induction cs generalizing r with
  | nil => exact outside
  | cons c cs ih => exact ih (ask_outside outside c)

theorem refuses_of_failed (failed : r.state = .failed) : r.Refuses := by
  intro cs
  induction cs with
  | nil => rfl
  | cons c cs ih => simp only [asks, ask_of_failed failed, ih, List.map_cons]

/-- A reader that refuses has failed: one at the end says so to direct calls, and
any other moves on. -/
theorem Refuses.failed (refuses : r.Refuses) : r.state = .failed := by
  have single : ∀ c, r.ask c = (refusal c, r) := by
    intro c
    have answers := refuses [c]
    simp only [asks, List.map_cons, List.map_nil, Prod.mk.injEq, List.cons.injEq,
      and_true] at answers
    exact Prod.ext answers.1 answers.2
  by_contra unfailed
  by_cases finished : r.state = .finished
  · have direct := single .next
    simp [ask_of_finished finished, refusal] at direct
  · have ends : ∀ {r'}, r.Turn none r' → r'.state = .finished := fun turn => by
      cases turn
      rfl
    exact finished (ends (turn_of_active ⟨finished, unfailed⟩ (single .step)))

theorem refuses_iff_of_error {c : Call} {e : LoopError} (asked : r.ask c = (some (.error e), r')) :
    r'.Refuses ↔ ¬ r.Stalls := by
  by_cases failed : r.state = .failed
  · rw [ask_of_failed failed] at asked
    obtain ⟨-, rfl⟩ := Prod.mk.inj asked
    exact iff_of_true (refuses_of_failed failed) fun stalls => stalls.active.unfailed failed
  by_cases finished : r.state = .finished
  · simp [ask_of_finished finished] at asked
  have active : r.Active := ⟨finished, failed⟩
  cases turn_of_active active asked with
  | malformed complete run =>
      refine iff_of_true (refuses_of_failed (state_of_body_error run)) fun stalls => ?_
      simp [stalls.failed] at complete
  | stalled stalled =>
      exact iff_of_false (fun refuses => failed refuses.failed) fun calm => calm ⟨active, stalled⟩

/-! ## Work inside a record -/

variable {α β : Type}

/-- The work counts no record, and an error of it is not that of a reader that
had failed before, nor an overflow unless the window is too wide. -/
def Inside (act : RecordReading α) : Prop := ∀ r : Reader,
  match act r with
  | .ok _ r' => r'.recordsRead = r.recordsRead ∧ r'.limits = r.limits
  | .error e r' =>
      (e ≠ .readerFailed ∧ (e = .windowOverflow → leBound 8 ≤ commentWindow r.limits)) ∧
        r'.recordsRead = r.recordsRead

theorem Inside.bind {act : RecordReading α} {f : α → RecordReading β} (first : Inside act)
    (second : ∀ a, Inside (f a)) : Inside (act >>= f) := by
  intro r
  have start := first r
  cases run : act r with
  | ok a u =>
      have rest := second a u
      simp only [run] at start
      rw [bind_of_ok run, ← start.1, ← start.2]
      exact rest
  | error e u =>
      rw [bind_of_error run]
      simpa only [run] using start

theorem inside_pure (a : α) : Inside (pure a) := fun _ => ⟨rfl, rfl⟩

theorem inside_get : Inside (get : RecordReading Reader) := fun _ => ⟨rfl, rfl⟩

theorem inside_throw {e : LoopError} (other : e ≠ .readerFailed) (narrow : e ≠ .windowOverflow) :
    Inside (throw e : RecordReading α) :=
  fun _ => ⟨⟨other, fun wide => absurd wide narrow⟩, rfl⟩

theorem inside_field (name : String) (width : Nat) : Inside (field name width) := by
  intro r
  rw [field_eq]
  rcases r.source.take width with ⟨supply, bs, source⟩
  cases supply <;> simp

theorem inside_commentOctets : Inside commentOctets := by
  intro r
  by_cases narrow : commentWindow r.limits < leBound 8
  case neg => simp [commentOctets_of_overflow (Nat.not_lt.mp narrow), Nat.not_lt.mp narrow]
  rw [commentOctets_eq narrow]
  rcases r.source.takeThrough terminator (commentWindow r.limits) with ⟨supply, bs, source⟩
  cases supply with
  | failed => simp
  | _ =>
      by_cases stopped : bs.getLast? = some terminator
      · simp [stopped]
      · by_cases full : commentWindow r.limits ≤ bs.length <;> simp [stopped, full]

theorem inside_comment : Inside comment := by
  refine inside_commentOctets.bind fun bs => ?_
  split
  · exact inside_throw nofun nofun
  · split
    · split
      · exact inside_pure _
      · exact inside_throw nofun nofun
    · exact inside_throw nofun nofun

theorem inside_payload (length : Nat) : Inside (payload length) := by
  intro r
  rw [payload_eq]
  rcases r.source.take length with ⟨supply, bs, source⟩
  cases supply <;> simp

theorem inside_payloadLength : Inside payloadLength := by
  refine (inside_field _ _).bind fun bs => ?_
  simp only
  with_reducible refine inside_get.bind fun r => ?_
  split
  · exact inside_throw nofun nofun
  · split
    · exact inside_throw nofun nofun
    · exact inside_pure _

theorem inside_record : Inside record := by
  refine (inside_field _ _).bind fun start => ?_
  have mismatch : ∀ (e : LoopError) (f : PUnit → RecordReading Record), e ≠ .readerFailed →
      e ≠ .windowOverflow → Inside (throw e >>= f) := by
    intro e f other narrow r
    have thrown : (throw e : RecordReading PUnit) r = .error e r := rfl
    rw [bind_of_error thrown]
    exact ⟨⟨other, fun wide => absurd wide narrow⟩, rfl⟩
  split
  · exact mismatch (.badMagic start) _ nofun nofun
  · refine (inside_field _ _).bind fun gap => ?_
    split
    · exact mismatch (.missingSeparator "magic" (gap.headD 0)) _ nofun nofun
    · refine inside_comment.bind fun text => (inside_field _ _).bind fun words => ?_
      refine inside_payloadLength.bind fun length => ?_
      exact (inside_payload length).bind fun bs => inside_pure _

theorem inside_of_body_error {e : LoopError} (run : r.body = .error e r') :
    (e ≠ .readerFailed ∧ (e = .windowOverflow → leBound 8 ≤ commentWindow r.limits)) ∧
      r'.recordsRead = r.recordsRead := by
  have work := inside_record { r with state := .midRecord }
  unfold body at run
  cases inner : record { r with state := .midRecord } with
  | ok rec u => simp [inner] at run
  | error e' u =>
      simp only [inner] at run work
      cases run
      exact work

end Reader

end Chronicle.Loop
