import Chronicle.Limits
import Chronicle.Proofs.Walk.Delimiting
import Chronicle.Proofs.Walk.Reporting
import Chronicle.Proofs.Walk.Restoring
import Chronicle.Proofs.Walk.Seating

/-!
# Numbers of restored objects

At each moment of a restore, on any octets and whether or not it will succeed,
the numbers of the objects bound so far are their places in the table.  A new
object is accepted under the next number only, a reference back leads to the
object that has the number, and no object changes its number or its type.
-/

namespace Chronicle

open Success

namespace Read

variable {s m : ReadState} {number : Nat}

theorem marker_of_new (small : number < leBound 4)
    (moved : s.Consumes (newMarker :: leBytes 4 number) m) :
    marker s = if number = nextNumber s then .ok (.fresh number) m
      else .error (.referenceOutOfSequence (nextNumber s) number) m := by
  obtain ⟨s₁, first, second⟩ := ReadState.consumes_append.mp
    (show s.Consumes ([newMarker] ++ leBytes 4 number) m from moved)
  rw [marker, bind_of_ok (take_octet.mpr first), if_pos rfl,
    bind_of_ok (take_word.mpr ⟨small, second⟩), get_bind, moved.nextNumber_eq]
  split <;> rfl

theorem marker_of_back (small : number < leBound 4)
    (moved : s.Consumes (backMarker :: leBytes 4 number) m) :
    marker s = match s.bound[number]? with
      | some id => .ok (.existing number id) m
      | none => .error (.backReferenceOutOfRange number s.bound.size) m := by
  obtain ⟨s₁, first, second⟩ := ReadState.consumes_append.mp
    (show s.Consumes ([backMarker] ++ leBytes 4 number) m from moved)
  rw [marker, bind_of_ok (take_octet.mpr first), if_neg (by decide), if_pos rfl,
    bind_of_ok (take_word.mpr ⟨small, second⟩), get_bind, moved.bound_eq]
  cases s.bound[number]? <;> rfl

end Read

/-- How references are read at a state.  A new object is accepted under the number
of objects bound so far, and bound under it if a fresh value can be made; a
reference back is accepted below that number, and as a reference of a known type
if the content of the object has it. -/
structure ReadState.Numbered (c : ReadContext) (s : ReadState) : Prop where
  fresh : ∀ number m, number < leBound 4 → s.Consumes (newMarker :: leBytes 4 number) m →
    Read.marker s = if number = s.bound.size then .ok (.fresh number) m
      else .error (.referenceOutOfSequence s.bound.size number) m
  binds : ∀ content bs m, s.Consumes bs m → Read.announce c s.bound.size content m =
    match c.registry.makeBlank content m.heap with
    | .error e heap => .error e { m with heap }
    | .ok blank heap => .ok (heap.size, blank)
        { m with heap := heap.push ⟨content, blank⟩, bound := s.bound.push heap.size }
  back : ∀ number m, number < leBound 4 → s.Consumes (backMarker :: leBytes 4 number) m →
    if known : number < s.bound.size then ∃ cell, s.heap[s.bound[number]]? = some cell ∧
      (∀ lower, Read.anyShared c lower s = .ok (.object s.bound[number]) m) ∧
      ∀ lower content, Read.shared c lower content s =
        if cell.type = content then .ok (.object s.bound[number]) m
        else .error (.referenceTypeMismatch number content.name) m
    else (∀ lower, Read.anyShared c lower s =
        .error (.backReferenceOutOfRange number s.bound.size) m) ∧
      ∀ lower content, Read.shared c lower content s =
        .error (.backReferenceOutOfRange number s.bound.size) m

namespace ReadState

variable {c : ReadContext} {s : ReadState}

theorem Numbered.of_few (few : s.bound.size < leBound 4) (here : ∀ id ∈ s.bound, id < s.heap.size) :
    s.Numbered c := by
  have next : Read.nextNumber s = s.bound.size := Nat.mod_eq_of_lt few
  constructor
  case fresh =>
    intro number m small moved
    rw [Read.marker_of_new small moved, next]
  case binds =>
    intro content bs m moved
    rw [Read.announce_eq, moved.nextNumber_eq, next, moved.bound_eq]
    cases c.registry.makeBlank content m.heap <;> simp
  case back =>
    intro number m small moved
    have marked := Read.marker_of_back small moved
    split
    · next known =>
        rw [Array.getElem?_eq_getElem known] at marked
        have inside := here _ (Array.getElem_mem known)
        refine ⟨s.heap[s.bound[number]], Array.getElem?_eq_getElem inside, fun lower => ?_,
          fun lower content => ?_⟩
        · rw [Read.anyShared, bind_of_ok marked]
          rfl
        · rw [Read.shared, bind_of_ok marked]
          simp only [get_bind, moved.heap_eq, Array.getElem?_eq_getElem inside]
          split <;> rfl
    · next unknown =>
        rw [Array.getElem?_eq_none (Nat.le_of_not_lt unknown)] at marked
        refine ⟨fun lower => ?_, fun lower content => ?_⟩
        · rw [Read.anyShared, bind_of_error marked]
        · rw [Read.shared, bind_of_error marked]

end ReadState

namespace Registry

variable {r : Registry} {o : WalkOptions} {type : Ty} {bs : Bytes}

theorem numbered_restoringAt (short : bs.length ≤ maxPayloadField) (k : Nat) :
    (r.restoringAt o type bs k).turn.state.Numbered (r.readContext o) := by
  obtain ⟨whole, paid, here⟩ := state_restoringAt r o type bs k
  have fits : maxPayloadField < leBound 4 := by decide
  exact .of_few (by omega) here

theorem not_mem_entered {k id : Nat} {goal : ReadGoal} {s : ReadState}
    {resume : EStateM.Result (WalkError × Value) ReadState Value →
      Turn ReadGoal ReadState (WalkError × Value) Value _}
    (enters : (r.restoringAt o type bs k).turn = .calls (.into id) goal s resume) :
    id ∉ (r.restoringAt o type bs k).entered := by
  obtain ⟨_, _, sound⟩ := sound_restoringAt r o type bs k
  have free := sound.clash_eq_none enters
  intro inside
  simp [Calls.clash, inside, ReadContext.calls] at free

end Registry

/-- What holds of references at each moment of a restore, and of those in the graph
that it comes to.  Numbers are judged by the objects bound so far, which keep
their numbers and their types; no object is entered while it is being walked, and
no failure says that one was; in a restored graph, each reference is to an object
that was bound, with a content of the type that the reference is for. -/
theorem restored_references {r : Registry} {o : WalkOptions} {type : Ty} {bs : Bytes}
    (short : bs.length ≤ maxPayloadField)
    (handlers : ∀ s h, r.Leads type s → r.find? s = some h → h.Walks r) :
    (∃ k, r.restoringAt o type bs k = { turn := .ends (r.restoringOutcome o type bs) }) ∧
    (∀ k, (r.restoringAt o type bs k).turn.state.Numbered (r.readContext o)) ∧
    (∀ j k, j ≤ k →
      (r.restoringAt o type bs j).turn.state.bound.toList <+:
          (r.restoringAt o type bs k).turn.state.bound.toList ∧
        ∀ (id : Nat) (cell : Cell), (r.restoringAt o type bs j).turn.state.heap[id]? = some cell →
          ∃ cell', (r.restoringAt o type bs k).turn.state.heap[id]? = some cell' ∧
            cell'.type = cell.type) ∧
    (∀ k, (r.restoringAt o type bs k).turn.state.filling =
      (r.restoringAt o type bs k).turn.entering ++ (r.restoringAt o type bs k).entered) ∧
    (∀ k id goal s resume, (r.restoringAt o type bs k).turn = .calls (.into id) goal s resume →
      id ∉ (r.restoringAt o type bs k).entered) ∧
    (∀ name, r.restore o type bs ≠ .error (.alreadyBorrowed name)) ∧
    ∀ g, r.restore o type bs = .ok g → ∃ s, r.readGraph o type bs = .ok g.root s ∧
      g.heap = s.heap ∧ (∀ id, g.Reaches id → id ∈ s.bound) ∧ s.Seats r type g.root ∧
      ∀ id ∈ s.bound, ∃ cell, g.heap[id]? = some cell ∧ s.Seats r cell.type cell.content := by
  refine ⟨⟨_, (Registry.course_restoring r o type bs).finishes _ (Nat.le_refl _)⟩,
    Registry.numbered_restoringAt short, fun j k before => ?_,
    Registry.filling_restoringAt r o type bs,
    fun k id goal s resume enters => Registry.not_mem_entered enters, fun name failed => ?_,
    fun g restored => ?_⟩
  · obtain ⟨⟨_, ids, _, bound, _⟩, types⟩ :=
      Registry.later_restoringAt r o type bs before
    exact ⟨⟨ids, bound.symm⟩, types⟩
  · exact Registry.not_isClash_of_restore failed trivial
  · obtain ⟨root, s, read, _, rfl⟩ := Registry.restore_eq_ok.mp restored
    obtain ⟨seats, contents, reached⟩ := (Registry.primed_of_handlers handlers).seated read
    exact ⟨s, read, rfl, reached, seats, contents⟩

theorem knot_walks (type : Ty) (h : Handler) (found : knotRegistry.find? type = some h) :
    h.Walks knotRegistry := by
  rcases List.mem_append.mp (List.mem_of_find?_eq_some found) with basic | added
  · exact .provided (.basic basic)
  · simp only [List.mem_cons, List.not_mem_nil, or_false] at added
    rcases added with rfl | rfl | rfl
    · exact .provided (.shared knot)
    · exact .provided (.option (.shared knot))
    · refine .record rfl rfl fun i makes => ⟨_, (Option.some.inj makes).symm, fun _ => ⟨_, rfl, ?_⟩⟩
      exact .cons (.replaced _ rfl trivial)
        (.cons (.replaced _ rfl trivial) (.cons (.replaced _ rfl trivial) .nil))

theorem restored_references_knot : knotOctets.length ≤ maxPayloadField ∧
    (∀ s h, knotRegistry.Leads knot s → knotRegistry.find? s = some h → h.Walks knotRegistry) ∧
    ∃ g s, knotRegistry.restore {} knot knotOctets = .ok g ∧
      knotRegistry.readGraph {} knot knotOctets = .ok g.root s ∧ g.heap = s.heap ∧
      (∀ id, g.Reaches id → id ∈ s.bound) ∧ s.Seats knotRegistry knot g.root ∧
      ∀ id ∈ s.bound, ∃ cell, g.heap[id]? = some cell ∧
        s.Seats knotRegistry cell.type cell.content := by
  have handlers : ∀ s h, knotRegistry.Leads knot s → knotRegistry.find? s = some h →
      h.Walks knotRegistry := fun s h _ found => knot_walks s h found
  have short : knotOctets.length ≤ maxPayloadField := by decide
  obtain ⟨g, restored⟩ := knot_restored
  obtain ⟨_, _, _, _, _, _, sound⟩ := restored_references (o := {}) short handlers
  obtain ⟨s, read, same, reached, seats, contents⟩ := sound g restored
  exact ⟨short, handlers, g, s, restored, read, same, reached, seats, contents⟩

end Chronicle
