import Chronicle.Proofs.Registry.WellFormed
import Chronicle.Proofs.Walk.Comparing
import Chronicle.Proofs.Walk.Levels
import Chronicle.Proofs.Walk.WriteLedger

/-!
# Both walks end

Snapshots and restores come to their end after a number of steps that the graph or
the payload has on its own: no limit on the levels is needed for it.  The one step
that may not come to an end is a comparison of keys that lead back to themselves.
-/

namespace Chronicle

/-- A number of steps after which a graph was written, whatever the options. -/
def Graph.writingSteps (g : Graph) : Nat :=
  g.heap.unmet #[] (List.range g.heap.size) + (g.root.weight + 2)

def WalkOptions.snapshotting (o : WalkOptions) (g : Graph) (counter : Nat) :
    Moment WriteGoal WriteState WalkError Unit where
  turn := .calls .along (.value g.type g.root)
    { out := ByteWriter.withLimit o.limits.maxSequence, counter } .ends

namespace Registry

variable {r : Registry} {o : WalkOptions} {g : Graph} {counter : Nat}

theorem sound_snapshotting : (o.snapshotting g counter).turn.Sound (r.writeContext o g).ledger
    [] { out := ByteWriter.withLimit o.limits.maxSequence, counter } g.writingSteps :=
  Write.Turns.sound_value (c := r.writeContext o g) g.type g.root _ [] trivial

theorem run_snapshotting : (o.snapshotting g counter).turn.run
    ((r.writeContext o g).calls.answer (Write.goalAt (r.writeContext o g)) o.limits.maxDepth) =
      r.writeGraph o g counter := by
  change (r.writeContext o g).calls.answer (Write.goalAt (r.writeContext o g)) o.limits.maxDepth
    .along (.value g.type g.root) { out := ByteWriter.withLimit o.limits.maxSequence, counter } = _
  rw [Write.Turns.answer_along, ← Write.valueAt_eq]
  rfl

/-- A walk that writes takes its course, whatever the options and the heap. -/
theorem course_snapshotting (r : Registry) (o : WalkOptions) (g : Graph) (counter : Nat) :
    (r.writeContext o g).calls.Course (Write.goalAt (r.writeContext o g))
      (o.snapshotting g counter) g.writingSteps (r.writeGraph o g counter) := by
  rw [← run_snapshotting]
  exact (Write.Turns.keeps _).course (Write.Turns.answers _) sound_snapshotting

end Registry

end Chronicle
