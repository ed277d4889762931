import Chronicle.Proofs.Walk.ReadLedger

/-!
# Restoring, moment by moment

The walk that restores a graph from its first moment on, when it is over, and
what holds of its state at each moment.
-/

namespace Chronicle

open Success

namespace Registry

variable (r : Registry) (o : WalkOptions) (type : Ty) (bs : Bytes)

def restoring : Moment ReadGoal ReadState (WalkError × Value) Value where
  turn := Pending.relabel (·, .unit) (Read.Turns.create (r.readContext o) type)
    { input := { rest := bs, limit := o.limits.maxSequence } }

def restoringAt (k : Nat) : Moment ReadGoal ReadState (WalkError × Value) Value :=
  (r.readContext o).calls.step^[k] (r.restoring o type bs)

def restoringSteps : Nat :=
  leBound 4 * (heaviest r.handlers + 2) * bs.length + (heaviest r.handlers + 2)

/-- The outcome of the walk; a failure before any value was made comes with none. -/
def restoringOutcome : EStateM.Result (WalkError × Value) ReadState Value :=
  match r.readGraph o type bs with
  | .ok v s => .ok v s
  | .error e s => .error (e, .unit) s

variable {r o type bs}

theorem sound_restoring : (r.restoring o type bs).turn.Sound (r.readContext o).ledger []
    { input := { rest := bs, limit := o.limits.maxSequence } } (r.restoringSteps bs) :=
  (Read.Turns.sound_create type).relabel _ _ [] rfl

theorem run_restoring : (r.restoring o type bs).turn.run
    ((r.readContext o).calls.answer (Read.goalAt (r.readContext o)) o.limits.maxDepth) =
      r.restoringOutcome o type bs := by
  have along := Read.Turns.answer_along (r.readContext o) o.limits.maxDepth
  change Pending.run _ (Pending.relabel (·, Value.unit) (Read.Turns.create _ type)) _ = _
  have read : Read.create (r.readContext o) (Read.valueAt (r.readContext o) o.limits.maxDepth) type
      { input := { rest := bs, limit := o.limits.maxSequence } } = r.readGraph o type bs := rfl
  rw [Read.Turns.run_relabel, Read.Turns.run_create along, Read.relabel, read, restoringOutcome]
  cases r.readGraph o type bs <;> rfl

/-- A walk that restores takes its course, whatever the options and the octets. -/
theorem course_restoring (r : Registry) (o : WalkOptions) (type : Ty) (bs : Bytes) :
    (r.readContext o).calls.Course (Read.goalAt (r.readContext o)) (r.restoring o type bs)
      (r.restoringSteps bs) (r.restoringOutcome o type bs) := by
  rw [← run_restoring]
  exact (Read.Turns.keeps _).course (Read.Turns.answers _) sound_restoring

variable (r o type bs)

theorem sound_restoringAt (k : Nat) : ∃ s n, (r.restoringAt o type bs k).Sound
    (r.readContext o).calls (r.readContext o).ledger s n :=
  (sound_restoring.first _).iterate (Read.Turns.keeps _) k

theorem later_restoringAt {j k : Nat} (before : j ≤ k) :
    (r.restoringAt o type bs j).turn.state.Later (r.restoringAt o type bs k).turn.state := by
  obtain ⟨i, rfl⟩ := Nat.exists_eq_add_of_le' before
  obtain ⟨s, n, sound⟩ := sound_restoringAt r o type bs j
  have steps : r.restoringAt o type bs (i + j) =
      (r.readContext o).calls.step^[i] (r.restoringAt o type bs j) :=
    Function.iterate_add_apply _ i j _
  rw [steps]
  exact sound.later_iterate (Read.Turns.keeps _) i

/-- The objects that a state takes to be filled are those that are being walked, and
the one that is about to be. -/
theorem filling_restoringAt (k : Nat) :
    (r.restoringAt o type bs k).turn.state.filling =
      (r.restoringAt o type bs k).turn.entering ++ (r.restoringAt o type bs k).entered := by
  obtain ⟨s, n, sound⟩ := sound_restoringAt r o type bs k
  exact sound.held

/-- What holds of the state at each moment: its input is the rest of the payload,
each object was bound after five octets of its own, and all bound objects are there. -/
theorem state_restoringAt (k : Nat) :
    let s := (r.restoringAt o type bs k).turn.state
    s.input.position + s.input.remaining = bs.length ∧ 5 * s.bound.size ≤ s.input.position ∧
      ∀ id ∈ s.bound, id < s.heap.size := by
  have later : ReadState.Later { input := { rest := bs, limit := o.limits.maxSequence } }
      (r.restoringAt o type bs k).turn.state :=
    .trans sound_restoring.later (later_restoringAt r o type bs (Nat.zero_le k))
  obtain ⟨cs, ids, passes, bound, paid, here⟩ := later.moved
  generalize (r.restoringAt o type bs k).turn.state = s at passes bound here ⊢
  have position := passes.position_eq
  have left := passes.length_eq
  have count : s.bound.size = ids.length := by
    rw [← Array.length_toList, bound]
    simp
  simp only [Nat.zero_add] at position left
  refine ⟨?_, by omega, fun id member => here id ?_⟩
  · rw [ByteReader.remaining]
    omega
  · rw [← Array.mem_toList_iff, bound] at member
    simpa using member

end Registry

end Chronicle
