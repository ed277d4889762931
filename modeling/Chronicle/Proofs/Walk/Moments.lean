import Chronicle.Proofs.Walk.Turns
import Mathlib.Data.Nat.Find

/-!
# Moments of a walk

A walk that keeps to a ledger comes to its end, since each step uses up some of
what the ledger allows.  At every moment of it the levels that are open are
those of the calls that wait, a call returns to the moment it was made from with
the outcome that its goal has on its own, and no object is entered twice.
-/

namespace Chronicle

variable {γ σ ε α : Type} {w : Calls γ σ ε α} {l : Ledger γ σ} {entered : List Nat}
  {s t : σ} {b n : Nat}

/-- Walks that wait, from the innermost on, each with what it may still spend, and
the objects that were entered on the way. -/
inductive Stacked (l : Ledger γ σ) : List Nat → σ → Nat → List (Frame γ σ ε α) → Prop
  | nil {entered : List Nat} {s : σ} : Stacked l entered s 0 []
  | cons {entered outer : List Nat} {s t : σ} {b rest : Nat} {frame : Frame γ σ ε α}
      {stack : List (Frame γ σ ε α)} : entered = frame.way.enter outer → l.Later t s →
      (∀ answer, l.Later t (finalState answer) → l.Held (finalState answer) entered →
        (frame.resume answer).Sound l outer (finalState answer)
          (l.fuel (finalState answer) + rest)) →
      Stacked l outer t b stack → Stacked l entered s (b + rest + 1) (frame :: stack)

theorem Stacked.later {stack : List (Frame γ σ ε α)} (stacked : Stacked l entered s b stack)
    (after : l.Later s t) : Stacked l entered t b stack := by
  cases stacked with
  | nil => exact .nil
  | cons same before next outer => exact .cons same (l.trans before after) next outer

namespace Moment

/-- The levels that are open and the objects that are being walked are those of
the calls that wait. -/
structure Balanced (w : Calls γ σ ε α) (m : Moment γ σ ε α) : Prop where
  depth_eq : m.depth = m.stack.countP (·.way.opens)
  depth_le : m.depth ≤ w.limit
  entered_eq : m.entered = m.stack.filterMap (·.way.object?)

structure Sound (w : Calls γ σ ε α) (l : Ledger γ σ) (s : σ) (n : Nat) (m : Moment γ σ ε α) :
    Prop where
  spent : ∃ b c, b + c = n ∧ m.turn.Sound l m.entered s b ∧ Stacked l m.entered s c m.stack
  balanced : m.Balanced w
  met : ∀ id ∈ m.entered, l.Met s id

section Balanced

variable {m : Moment γ σ ε α} {frame : Frame γ σ ε α} {stack : List (Frame γ σ ε α)}
  (turn : Turn γ σ ε α (EStateM.Result ε σ α))

theorem Balanced.goOn (balanced : m.Balanced w) : { m with turn }.Balanced w :=
  ⟨balanced.depth_eq, balanced.depth_le, balanced.entered_eq⟩

theorem Balanced.leave (balanced : m.Balanced w) (waits : m.stack = frame :: stack) :
    { m.leave frame.way with stack, turn }.Balanced w := by
  obtain ⟨depth_eq, depth_le, entered_eq⟩ := balanced
  rw [waits] at depth_eq entered_eq
  cases way : frame.way <;> simp [way] at depth_eq entered_eq <;> constructor <;>
    simp [Moment.leave, *] <;> omega

theorem Balanced.enter (balanced : m.Balanced w) {way : Way}
    (room : way.opens = true → m.depth < w.limit)
    (resume : EStateM.Result ε σ α → Turn γ σ ε α (EStateM.Result ε σ α)) :
    { m.enter way with stack := ⟨way, resume⟩ :: m.stack, turn }.Balanced w := by
  obtain ⟨depth_eq, depth_le, entered_eq⟩ := balanced
  cases way with
  | along =>
      exact ⟨by simp [Moment.enter, depth_eq], depth_le,
        by simp [Moment.enter, entered_eq, List.filterMap_cons]⟩
  | down | into _ =>
      exact ⟨by simp [Moment.enter, depth_eq, List.countP_cons], room rfl,
        by simp [Moment.enter, entered_eq, List.filterMap_cons]⟩

end Balanced

theorem Over.step_eq {m : Moment γ σ ε α} (finished : m.Over) : w.step m = m := by
  obtain ⟨alone, outcome, ended⟩ := finished
  simp only [Calls.step, ended, alone]

namespace Sound

variable {m : Moment γ σ ε α}

theorem later (sound : m.Sound w l s n) : l.Later s m.turn.state := by
  obtain ⟨_, _, _, turn, _⟩ := sound.spent
  exact turn.later

theorem held (sound : m.Sound w l s n) :
    l.Held m.turn.state (m.turn.entering ++ m.entered) := by
  obtain ⟨_, _, _, turn, _⟩ := sound.spent
  exact turn.held

theorem opens {way : Way} {goal : γ} {resume : EStateM.Result ε σ α → Turn γ σ ε α _}
    (sound : m.Sound w l s n) (waits : m.turn = .calls way goal t resume) : l.Opens s t way := by
  obtain ⟨_, _, _, turn, _⟩ := sound.spent
  rw [waits] at turn
  cases turn with
  | calls _ _ opens => exact opens

theorem clash_eq_none {way : Way} {goal : γ} {resume : EStateM.Result ε σ α → Turn γ σ ε α _}
    (sound : m.Sound w l s n) (waits : m.turn = .calls way goal t resume) :
    w.clash m goal way = none := by
  have opens := sound.opens waits
  cases way with
  | into id => exact if_neg fun inside => opens.1 (sound.met id inside)
  | _ => rfl

theorem met_state (sound : m.Sound w l s n) : ∀ id ∈ m.entered, l.Met m.turn.state id :=
  fun id inside => l.met_of_later sound.later (sound.met id inside)

theorem step_of_ends (sound : m.Sound w l s n) {outcome : EStateM.Result ε σ α}
    {frame : Frame γ σ ε α} {stack : List (Frame γ σ ε α)} (ended : m.turn = .ends outcome)
    (waits : m.stack = frame :: stack) : ∃ n' < n, (w.step m).Sound w l m.turn.state n' := by
  have still := sound.met_state
  obtain ⟨⟨b, c, rfl, turn_sound, stacked⟩, balanced, -⟩ := sound
  have later := turn_sound.later
  have stepped : w.step m = { m.leave frame.way with stack, turn := frame.resume outcome } := by
    simp only [Calls.step, ended, waits]
  rw [stepped]
  rw [ended] at turn_sound later still ⊢
  rw [waits] at stacked
  cases stacked with
  | @cons _ around _ u c rest _ _ same before next outer =>
      have after := l.trans before later
      have left : (m.leave frame.way).entered = around := by
        cases way : frame.way <;> simp [Moment.leave, same, way, Way.enter]
      cases turn_sound with
      | ends _ held fuel =>
          refine ⟨l.fuel (finalState outcome) + rest + c, by omega, ⟨_, _, rfl, ?_, ?_⟩,
            balanced.leave _ waits, ?_⟩
          · exact left ▸ next outcome after held
          · exact left ▸ outer.later after
          · cases frame.way with
            | along | down => exact still
            | into id => exact fun id inside => still id (List.mem_of_mem_tail inside)

theorem step_of_refused (sound : m.Sound w l s n) {way : Way} {goal : γ} {e : ε}
    {resume : EStateM.Result ε σ α → Turn γ σ ε α _} (waits : m.turn = .calls way goal t resume)
    (refused : w.refusal m way goal = some e) :
    ∃ n' < n, (w.step m).Sound w l m.turn.state n' := by
  have still := sound.met_state
  obtain ⟨⟨b, c, rfl, turn_sound, stacked⟩, balanced, -⟩ := sound
  have later := turn_sound.later
  have stepped : w.step m = { m with turn := resume (.error e t) } := by
    simp only [Calls.step, waits, refused]
  rw [stepped]
  rw [waits] at turn_sound later still ⊢
  cases turn_sound with
  | calls rest _ opens held price next =>
      exact ⟨l.fuel t + rest + c, by omega,
        ⟨_, _, rfl, next (.error e t) (l.refl t) held, stacked.later later⟩, balanced.goOn _,
        still⟩

theorem step_of_taken (keeps : w.Keeps l) (sound : m.Sound w l s n) {way : Way} {goal : γ}
    {resume : EStateM.Result ε σ α → Turn γ σ ε α _} (waits : m.turn = .calls way goal t resume)
    (taken : w.refusal m way goal = none) :
    ∃ n' < n, (w.step m).Sound w l m.turn.state n' := by
  have still := sound.met_state
  have no_clash := sound.clash_eq_none waits
  obtain ⟨⟨b, c, rfl, turn_sound, stacked⟩, balanced, -⟩ := sound
  have later := turn_sound.later
  have stepped : w.step m = { m.enter way with
      stack := ⟨way, resume⟩ :: m.stack, turn := w.body goal t } := by
    simp only [Calls.step, waits, taken]
  rw [stepped]
  rw [waits] at turn_sound later still ⊢
  cases turn_sound with
  | calls rest _ opens held price next =>
      have room : way.opens = true → m.depth < w.limit := by
        intro level
        simpa [Calls.refusal, no_clash, level] using taken
      have inside : (m.enter way).entered = way.enter m.entered := by cases way <;> rfl
      refine ⟨l.fuel t + l.price goal + (c + rest + 1), by omega,
        ⟨_, _, rfl, ?_, .cons inside (l.refl t) (inside ▸ next) (stacked.later later)⟩,
        balanced.enter _ room resume, ?_⟩
      · exact inside ▸ keeps goal t _ held
      · cases way with
        | along | down => exact still
        | into id => exact fun id inside =>
            (List.mem_cons.mp inside).elim (· ▸ opens.2) (still id)

theorem step (keeps : w.Keeps l) (sound : m.Sound w l s n) :
    m.Over ∨ ∃ n' < n, (w.step m).Sound w l m.turn.state n' := by
  cases turn : m.turn with
  | ends outcome =>
      cases waits : m.stack with
      | nil => exact .inl ⟨waits, outcome, turn⟩
      | cons frame stack => exact .inr (turn ▸ sound.step_of_ends turn waits)
  | calls way goal t resume =>
      cases refused : w.refusal m way goal with
      | some e => exact .inr (turn ▸ sound.step_of_refused turn refused)
      | none => exact .inr (turn ▸ sound.step_of_taken keeps turn refused)

theorem iterate (keeps : w.Keeps l) (sound : m.Sound w l s n) (k : Nat) :
    ∃ s' n', (w.step^[k] m).Sound w l s' n' := by
  induction k with
  | zero => exact ⟨s, n, sound⟩
  | succ k ih =>
      obtain ⟨s', n', sound'⟩ := ih
      rw [Function.iterate_succ_apply']
      rcases sound'.step keeps with finished | ⟨n'', _, next⟩
      · rw [finished.step_eq]
        exact ⟨s', n', sound'⟩
      · exact ⟨_, n'', next⟩

theorem later_iterate (keeps : w.Keeps l) (sound : m.Sound w l s n) (k : Nat) :
    l.Later m.turn.state (w.step^[k] m).turn.state := by
  induction k with
  | zero => exact l.refl _
  | succ k ih =>
      obtain ⟨s', n', sound'⟩ := sound.iterate keeps k
      rw [Function.iterate_succ_apply']
      rcases sound'.step keeps with finished | ⟨_, _, next⟩
      · rw [finished.step_eq]
        exact ih
      · exact l.trans ih next.later

end Sound

end Moment

/-! ## Calls that return -/

inductive Calls.Runs (w : Calls γ σ ε α) (floor : List (Frame γ σ ε α)) :
    Moment γ σ ε α → Nat → Moment γ σ ε α → Prop
  | refl {m : Moment γ σ ε α} : floor <:+ m.stack → Runs w floor m 0 m
  | step {m m' : Moment γ σ ε α} {k : Nat} : floor <:+ m.stack →
      Runs w floor (w.step m) k m' → Runs w floor m (k + 1) m'

namespace Calls.Runs

variable {floor floor' : List (Frame γ σ ε α)} {m m' m'' : Moment γ σ ε α} {j k : Nat}

theorem trans (first : w.Runs floor m k m') (second : w.Runs floor m' n m'') :
    w.Runs floor m (k + n) m'' := by
  induction first with
  | refl => simpa using second
  | @step _ _ k onto _ ih =>
      rw [Nat.add_right_comm]
      exact .step onto (ih second)

theorem single (onto : floor <:+ m.stack) (onto' : floor <:+ m'.stack) (stepped : w.step m = m') :
    w.Runs floor m 1 m' := by
  subst stepped
  exact .step onto (.refl onto')

theorem lower (below : floor' <:+ floor) (runs : w.Runs floor m k m') : w.Runs floor' m k m' := by
  induction runs with
  | refl onto => exact .refl (below.trans onto)
  | step onto _ ih => exact .step (below.trans onto) ih

theorem iterate_eq (runs : w.Runs floor m k m') : w.step^[k] m = m' := by
  induction runs with
  | refl => rfl
  | step _ _ ih => rw [Function.iterate_succ_apply, ih]

theorem suffix (runs : w.Runs floor m k m') (within : j ≤ k) : floor <:+ (w.step^[j] m).stack := by
  induction runs generalizing j with
  | refl onto =>
      obtain rfl := Nat.le_zero.mp within
      exact onto
  | step onto _ ih =>
      cases j with
      | zero => exact onto
      | succ j =>
          rw [Function.iterate_succ_apply]
          exact ih (by omega)

end Calls.Runs

namespace Moment.Sound

variable {m : Moment γ σ ε α} {eval : Nat → γ → EStateM ε σ α}

theorem answer_of_refused {way : Way} {goal : γ} {e : ε} (no_clash : w.clash m goal way = none)
    (refused : w.refusal m way goal = some e) :
    w.answer eval (w.limit - m.depth) way goal = throw e := by
  simp only [Calls.refusal, no_clash, Option.ite_none_right_eq_some, Bool.and_eq_true,
    decide_eq_true_eq, Option.some.injEq] at refused
  obtain ⟨⟨level, full⟩, rfl⟩ := refused
  have none_left : w.limit - m.depth = 0 := by omega
  rw [none_left]
  cases way with
  | along => contradiction
  | down | into _ => rfl

theorem answer_of_made {way : Way} {goal : γ} (no_clash : w.clash m goal way = none)
    (made : w.refusal m way goal = none) :
    w.answer eval (w.limit - m.depth) way goal = eval (w.limit - (m.enter way).depth) goal := by
  simp only [Calls.refusal, no_clash, ite_eq_right_iff, reduceCtorEq, imp_false, Bool.and_eq_true,
    decide_eq_true_eq, not_and, Nat.not_le] at made
  cases way with
  | along => rfl
  | down | into _ =>
      obtain ⟨left, some_left⟩ : ∃ left, w.limit - m.depth = left + 1 :=
        ⟨w.limit - m.depth - 1, by have := made rfl; omega⟩
      have fewer : w.limit - (m.depth + 1) = left := by omega
      rw [some_left]
      simp only [enter, fewer]
      rfl

def Comes (w : Calls γ σ ε α) (l : Ledger γ σ) (m : Moment γ σ ε α) (n k : Nat)
    (turn : Turn γ σ ε α (EStateM.Result ε σ α)) : Prop :=
  w.Runs m.stack m k { m with turn } ∧ ∃ s' n', k + n' ≤ n ∧ Sound w l s' n' { m with turn }

theorem comes_of_call {way : Way} {goal : γ} {resume : EStateM.Result ε σ α → Turn γ σ ε α _}
    (answers : w.Answers eval) (keeps : w.Keeps l) (sound : m.Sound w l s n)
    (inner : ∀ n' < n, ∀ s' (m' : Moment γ σ ε α), m'.Sound w l s' n' →
      ∃ k, Comes w l m' n' k (.ends (m'.turn.run (w.answer eval (w.limit - m'.depth)))))
    (taken : m.turn = .calls way goal t resume) :
    ∃ k, Comes w l m n (k + 1) (resume (w.answer eval (w.limit - m.depth) way goal t)) := by
  rcases sound.step keeps with ⟨_, outcome, ended⟩ | ⟨n₁, less, next⟩
  · rw [ended] at taken
    contradiction
  have no_clash := sound.clash_eq_none taken
  cases refused : w.refusal m way goal with
  | some e =>
      have stepped : w.step m = { m with turn := resume (.error e t) } := by
        simp only [Calls.step, taken, refused]
      have answered : w.answer eval (w.limit - m.depth) way goal t = .error e t := by
        rw [answer_of_refused no_clash refused]
        rfl
      rw [stepped] at next
      rw [answered]
      exact ⟨0, .single (List.suffix_refl _) (List.suffix_refl _) stepped, _, n₁, by omega, next⟩
  | none =>
      have stepped : w.step m = { m.enter way with
          stack := ⟨way, resume⟩ :: m.stack, turn := w.body goal t } := by
        simp only [Calls.step, taken, refused]
      have answered : (w.body goal t).run (w.answer eval (w.limit - (m.enter way).depth)) =
          w.answer eval (w.limit - m.depth) way goal t := by
        rw [answer_of_made no_clash refused, ← answers]
        rfl
      rw [stepped] at next
      obtain ⟨k, runs, s₂, n₂, spent, last⟩ := inner n₁ less _ _ next
      simp only [answered] at runs last
      rcases last.step keeps with ⟨bottom, _⟩ | ⟨n₃, less', back⟩
      · contradiction
      have returned : w.step { m.enter way with
            stack := ⟨way, resume⟩ :: m.stack
            turn := .ends (w.answer eval (w.limit - m.depth) way goal t) } =
          { m with turn := resume (w.answer eval (w.limit - m.depth) way goal t) } := by
        cases way <;> rfl
      rw [returned] at back
      have onto : m.stack <:+ ⟨way, resume⟩ :: m.stack := List.suffix_cons _ _
      refine ⟨k + 1, .step (List.suffix_refl _) (stepped ▸ (runs.lower onto).trans ?_), _, n₃,
        by omega, back⟩
      exact .single onto (List.suffix_refl m.stack) returned

theorem returns (answers : w.Answers eval) (keeps : w.Keeps l) (sound : m.Sound w l s n) :
    ∃ k, Comes w l m n k (.ends (m.turn.run (w.answer eval (w.limit - m.depth)))) := by
  induction n using Nat.strongRecOn generalizing m s with
  | ind n ih =>
      cases taken : m.turn with
      | ends outcome =>
          have same : { m with turn := .ends outcome } = m := by rw [← taken]
          refine ⟨0, ?_, s, n, by omega, ?_⟩ <;> rw [Turn.run, same]
          · exact .refl (List.suffix_refl _)
          · exact sound
      | calls way goal t resume =>
          obtain ⟨k, runs, s', n', spent, next⟩ := sound.comes_of_call answers keeps
            (fun n' less s' m' sound' => ih n' less sound') taken
          obtain ⟨k', runs', s'', n'', spent', last⟩ := ih n' (by omega) next
          exact ⟨k + 1 + k', runs.trans runs', s'', n'', by omega, last⟩

theorem call_returns {way : Way} {goal : γ} {resume : EStateM.Result ε σ α → Turn γ σ ε α _}
    (answers : w.Answers eval) (keeps : w.Keeps l) (sound : m.Sound w l s n)
    (taken : m.turn = .calls way goal t resume) :
    ∃ k, w.Runs m.stack m (k + 1)
      { m with turn := resume (w.answer eval (w.limit - m.depth) way goal t) } := by
  obtain ⟨k, runs, _⟩ := sound.comes_of_call answers keeps
    (fun n' _ s' m' sound' => sound'.returns answers keeps) taken
  exact ⟨k, runs⟩

theorem entered_once {id j k : Nat} {goal goal' : γ} {t' : σ}
    {resume resume' : EStateM.Result ε σ α → Turn γ σ ε α _} (keeps : w.Keeps l)
    (sound : m.Sound w l s n)
    (first : (w.step^[j] m).turn = .calls (.into id) goal t resume)
    (again : (w.step^[k] m).turn = .calls (.into id) goal' t' resume') : ¬ j < k := by
  intro before
  obtain ⟨i, rfl⟩ : ∃ i, k = j + i + 1 := ⟨k - j - 1, by omega⟩
  obtain ⟨s₁, n₁, entering⟩ := sound.iterate keeps j
  obtain ⟨s₂, n₂, between⟩ := sound.iterate keeps (j + i)
  have met : l.Met (w.step^[j] m).turn.state id := by
    rw [first]
    exact (entering.opens first).2
  have still : l.Met (w.step^[j + i] m).turn.state id := by
    rw [Nat.add_comm, Function.iterate_add_apply]
    exact l.met_of_later (entering.later_iterate keeps i) met
  rw [Function.iterate_succ_apply'] at again
  rcases between.step keeps with finished | ⟨_, _, next⟩
  · obtain ⟨_, outcome, ended⟩ := finished
    rw [Moment.Over.step_eq ⟨‹_›, outcome, ended⟩, ended] at again
    contradiction
  · exact (next.opens again).1 still

end Moment.Sound

/-! ## The first of its errors -/

section Owns

variable {bad : ε → Prop} {own : ε → σ → Prop}

structure Calls.Owns (w : Calls γ σ ε α) (bad : ε → Prop) (own : ε → σ → Prop) : Prop where
  body : ∀ goal, (w.body goal).Owns bad own
  tooDeep : ∀ goal, ¬ bad (w.tooDeep goal)
  taken : ∀ goal e, w.taken goal = some e → ¬ bad e

structure Moment.Owned (m : Moment γ σ ε α) (bad : ε → Prop) (own : ε → σ → Prop) : Prop where
  turn : m.turn.Owns bad own
  stack : ∀ frame ∈ m.stack, ∀ answer, Avoids bad answer → (frame.resume answer).Owns bad own

namespace Moment.Owned

variable {m : Moment γ σ ε α}

theorem not_bad_of_refusal (owns : w.Owns bad own) {way : Way} {goal : γ} {e : ε}
    (refused : w.refusal m way goal = some e) : ¬ bad e := by
  unfold Calls.refusal at refused
  split at refused
  · next clash =>
      obtain rfl := Option.some.inj refused
      cases way with
      | along | down => cases clash
      | into id => exact owns.taken goal _ (Option.ite_none_right_eq_some.mp clash).2
  · split at refused
    · obtain rfl := Option.some.inj refused
      exact owns.tooDeep goal
    · cases refused

theorem step (owns : w.Owns bad own) (owned : m.Owned bad own)
    (fine : ∀ outcome, m.turn = .ends outcome → Avoids bad outcome) :
    (w.step m).Owned bad own := by
  cases taken : m.turn with
  | ends outcome =>
      cases waits : m.stack with
      | nil => rwa [Over.step_eq ⟨waits, outcome, taken⟩]
      | cons frame stack =>
          have stepped : w.step m = { m.leave frame.way with
              stack, turn := frame.resume outcome } := by
            simp only [Calls.step, taken, waits]
          have below := owned.stack
          rw [waits] at below
          rw [stepped]
          exact ⟨below frame List.mem_cons_self outcome (fine outcome taken),
            fun other member => below other (List.mem_cons_of_mem _ member)⟩
  | calls way goal s resume =>
      have turn := owned.turn
      rw [taken] at turn
      cases turn with
      | calls next =>
          cases refused : w.refusal m way goal with
          | some e =>
              have stepped : w.step m = { m with turn := resume (.error e s) } := by
                simp only [Calls.step, taken, refused]
              rw [stepped]
              exact ⟨next _ (not_bad_of_refusal owns refused), owned.stack⟩
          | none =>
              have stepped : w.step m = { m.enter way with
                  stack := ⟨way, resume⟩ :: m.stack, turn := w.body goal s } := by
                simp only [Calls.step, taken, refused]
              rw [stepped]
              refine ⟨owns.body goal s, fun frame member => ?_⟩
              rcases List.mem_cons.mp member with rfl | member
              · exact next
              · exact owned.stack frame member

end Moment.Owned

end Owns

/-- A walk from its first moment on.  It is over after some steps, with an outcome,
and stays so.  At each moment the levels that are open are those of the calls that
wait, and there are no more than the limit.  Each call returns to the very moment it
was made from, with the outcome that its goal has on the level it is called on, and
what waited then waits all along.  No object is entered twice. -/
structure Calls.Course (w : Calls γ σ ε α) (eval : Nat → γ → EStateM ε σ α)
    (first : Moment γ σ ε α) (steps : Nat) (outcome : EStateM.Result ε σ α) : Prop where
  finishes : ∀ k, steps ≤ k → w.step^[k] first = { turn := .ends outcome }
  depth_eq : ∀ k, (w.step^[k] first).depth = (w.step^[k] first).stack.countP (·.way.opens)
  depth_le : ∀ k, (w.step^[k] first).depth ≤ w.limit
  returns : ∀ k way goal s resume, (w.step^[k] first).turn = .calls way goal s resume →
    ∃ j, w.step^[k + j + 1] first = { w.step^[k] first with
          turn := resume (w.answer eval (w.limit - (w.step^[k] first).depth) way goal s) } ∧
      ∀ i ≤ j + 1, (w.step^[k] first).stack <:+ (w.step^[k + i] first).stack
  enters_once : ∀ id j k goal goal' s s' resume resume',
    (w.step^[j] first).turn = .calls (.into id) goal s resume →
    (w.step^[k] first).turn = .calls (.into id) goal' s' resume' → j = k

theorem Moment.Over.iterate_eq {m : Moment γ σ ε α} (finished : m.Over) (k : Nat) :
    w.step^[k] m = m := by
  induction k with
  | zero => rfl
  | succ k ih => rw [Function.iterate_succ_apply, finished.step_eq, ih]

theorem Turn.Sound.first {turn : Turn γ σ ε α (EStateM.Result ε σ α)}
    (sound : turn.Sound l [] s n)
    (w : Calls γ σ ε α) : ({ turn } : Moment γ σ ε α).Sound w l s n :=
  ⟨⟨n, 0, rfl, sound, .nil⟩, ⟨rfl, Nat.zero_le _, rfl⟩, by simp⟩

theorem Calls.Keeps.course {eval : Nat → γ → EStateM ε σ α}
    {turn : Turn γ σ ε α (EStateM.Result ε σ α)} (keeps : w.Keeps l) (answers : w.Answers eval)
    (sound : turn.Sound l [] s n) :
    w.Course eval { turn } n (turn.run (w.answer eval w.limit)) := by
  have first := sound.first w
  constructor
  · intro k enough
    obtain ⟨j, runs, _, _, spent, _⟩ := first.returns answers keeps
    obtain ⟨i, rfl⟩ : ∃ i, k = i + j := ⟨k - j, by omega⟩
    rw [Function.iterate_add_apply, runs.iterate_eq]
    exact Moment.Over.iterate_eq ⟨rfl, _, rfl⟩ i
  · intro k
    obtain ⟨_, _, sound⟩ := first.iterate keeps k
    exact sound.balanced.depth_eq
  · intro k
    obtain ⟨_, _, sound⟩ := first.iterate keeps k
    exact sound.balanced.depth_le
  · intro k way goal t resume waits
    obtain ⟨_, _, sound⟩ := first.iterate keeps k
    obtain ⟨j, runs⟩ := sound.call_returns answers keeps waits
    refine ⟨j, ?_, fun i within => ?_⟩
    · rw [Nat.add_assoc, Nat.add_comm, Function.iterate_add_apply, runs.iterate_eq]
    · rw [Nat.add_comm, Function.iterate_add_apply]
      exact runs.suffix within
  · intro id j k goal goal' t t' resume resume' here there
    rcases Nat.lt_trichotomy j k with before | same | after
    · exact (first.entered_once keeps here there before).elim
    · exact same
    · exact (first.entered_once keeps there here after).elim

end Chronicle
