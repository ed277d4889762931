import Chronicle.Proofs.Walk.Reading
import Chronicle.Proofs.Walk.Writing

/-!
# Round trip

A snapshot of a faithful graph restores to a graph isomorphic to what can be
reached from the root, cycles and shared objects included.  The walk that
writes and the walk that reads both follow the written form, so they meet the
same objects in the same order.
-/

namespace Chronicle

open Success

variable {r : Registry} {o : WalkOptions} {g : Graph}

theorem Registry.restore_eq_ok {type : Ty} {bs : Bytes} {g' : Graph} :
    r.restore o type bs = .ok g' ↔ ∃ root s, r.readGraph o type bs = .ok root s ∧
      s.input.rest = [] ∧ g' = { type, root, heap := s.heap } := by
  unfold Registry.restore
  cases r.readGraph o type bs with
  | ok root s =>
      by_cases used : s.input.rest = []
      · simp [used, eq_comm]
      · simp [used]
  | error e s => simp

theorem Restores.readGraph {type : Ty} {v : Value} {h : Heap} {bs : Bytes} {met : Array Nat}
    (restores : Restores r o h o.limits.maxDepth type v #[] bs met) :
    ∃ f s, r.readGraph o type bs = .ok (v.rename f) s ∧ s.input.rest = [] ∧ Mirror h f met s ∧
      ∀ id ∈ met, ∃ cell, h[id]? = some cell ∧ (∀ k ∈ cell.content.references, k ∈ met) ∧
        s.heap[f id]? = some { cell with content := cell.content.rename f } := by
  let start : ReadState := { input := { rest := bs, limit := o.limits.maxSequence } }
  have begins : start.Begins o bs := ⟨⟨[], (List.append_nil bs).symm⟩, rfl⟩
  have mirror : Mirror h (fun id => id) #[] start := by
    constructor <;> simp [start]
  obtain ⟨blank, heap, made, fillable, grown⟩ := restores.makes.makeBlank_eq_ok start.heap
  have prepared := Restored.of_made mirror grown
  obtain ⟨f, s, run, restored⟩ := restores.fills (s := { start with heap })
    ⟨begins.starts, begins.limit_eq⟩ (Nat.le_refl _) fillable prepared.mirror
  refine ⟨f, s, ?_, ?_, restored.mirror, fun id member => restored.copied id member (by simp)⟩
  · refine Read.create_eq_ok.mpr ⟨blank, heap, made, ?_⟩
    rw [Read.walk, Read.valueAt_eq]
    exact run
  · have all : bs = bs ++ s.input.rest := restored.passes.rest_eq
    exact List.self_eq_append_right.mp all

theorem Written.restore (tags : r.tags.length ≤ leBound 4)
    (faithful : r.Faithful o g.heap g.type g.root) {bs : Bytes} {met : Array Nat}
    (form : Written r o g.heap o.limits.maxDepth g.type g.root #[] bs met) :
    ∃ g' f, r.restore o g.type bs = .ok g' ∧ g.Isomorphism g' f := by
  have restores := form.restores tags faithful
  obtain ⟨f, s, read, used, mirror, copied⟩ := restores.readGraph
  exact ⟨_, f, Registry.restore_eq_ok.mpr ⟨_, s, read, used, rfl⟩,
    .of_met rfl rfl restores.known mirror.apart copied⟩

/-- A snapshot of a faithful graph restores to an isomorphic graph, and the two
walks met equally many objects.  Tags are fields of four octets, so a registry
cannot have more contents than such a field can tell apart. -/
theorem restore_snapshot_isomorphic (tags : r.tags.length ≤ leBound 4)
    (faithful : r.Faithful o g.heap g.type g.root) {counter next : Nat} {bs : Bytes}
    (written : r.snapshot o g counter = (.ok bs, next)) :
    ∃ g' f, r.restore o g.type bs = .ok g' ∧ g.Isomorphism g' f ∧
      ∃ ws rs root, r.writeGraph o g counter = .ok () ws ∧
        r.readGraph o g.type bs = .ok root rs ∧ ws.visited.size = rs.bound.size := by
  obtain ⟨ws, run, rfl, _⟩ := Registry.snapshot_eq_ok.mp written
  have form := Registry.written_of_writeGraph faithful run
  have restores := form.restores tags faithful
  obtain ⟨f, rs, read, used, mirror, copied⟩ := restores.readGraph
  have met : ∀ id, g.Reaches id → id ∈ ws.visited := by
    intro id reached
    induction reached with
    | root member => exact restores.known _ member
    | step _ found member ih =>
        obtain ⟨cell, here, known, _⟩ := copied _ ih
        obtain rfl := Option.some.inj (found.symm.trans here)
        exact known _ member
  refine ⟨_, f, Registry.restore_eq_ok.mpr ⟨_, rs, read, used, rfl⟩, ?_, ws, rs, _, run, read, ?_⟩
  · refine Graph.Isomorphism.of_copy rfl rfl ?_ ?_
    · intro a reachedA b reachedB same
      exact mirror.apart a (met a reachedA) b (met b reachedB) same
    · intro id reached
      obtain ⟨cell, here, _, there⟩ := copied id (met id reached)
      exact ⟨cell, here, there⟩
  · rw [mirror.bound_eq, Array.size_map]

/-! ## A graph that refers to itself -/

def knot : Ty := .named "knot"

def knotFields : List Ty := [.scalar .u32, .option (.shared knot), .anyShared]

def knotHandler : Handler :=
  { Handler.plain knot (.list [.int 0, .absent, .nothing]) (.record knotFields) with
    dependencies := knotFields.map Handler.inPlace }

def knotBuilder : Builder where
  handlers := Builder.basicHandlers ++ [.shared knot, .option (.shared knot), knotHandler]
  contents := [knot]
  roots := [knot]

def knotRegistry : Registry where
  handlers := knotBuilder.handlers
  tags := [knot]
  roots := [knot]
  fingerprint := .ofFed knotBuilder.fed

/-- One object, met first as a polymorphic reference, whose content leads back
to it both ways. -/
def knotGraph : Graph where
  type := knot
  root := .list [.int 1, .absent, .object 0]
  heap := #[⟨knot, .list [.int 7, .present (.object 0), .object 0]⟩]

def knotOctets : Bytes :=
  [1, 0, 0, 0, 0, 1, 0, 0, 0, 0, 0, 0, 0, 0, 7, 0, 0, 0, 1, 2, 0, 0, 0, 0, 2, 0, 0, 0, 0]

theorem knot_symmetric : knotRegistry.Symmetric knot (.record knotFields) where
  writer_eq := rfl
  reader_eq := rfl
  makes := .template rfl fun _ => .record rfl
    (.cons (.replaced _ rfl trivial) (.cons (.replaced _ rfl trivial)
      (.cons (.replaced _ rfl trivial) .nil)))

theorem knot_makes_shared : knotRegistry.Makes (.shared knot) :=
  .placeholder rfl (fun _ => .replaced _ rfl trivial) knot_symmetric.makes

inductive KnotPlace : Ty → Value → Prop
  | root : KnotPlace knot knotGraph.root
  | content : KnotPlace knot (.list [.int 7, .present (.object 0), .object 0])
  | number (n : Int) : Scalar.u32.Holds n → KnotPlace (.scalar .u32) (.int n)
  | absent : KnotPlace (.option (.shared knot)) .absent
  | present : KnotPlace (.option (.shared knot)) (.present (.object 0))
  | shared : KnotPlace (.shared knot) (.object 0)
  | anyShared : KnotPlace .anyShared (.object 0)

theorem knot_places {s : Ty} {u : Value}
    (place : knotRegistry.Occurs knotGraph.heap knot knotGraph.root s u) : KnotPlace s u := by
  refine Registry.Occurs.of_closed KnotPlace.root ?_ ?_ place
  · intro s u place
    cases place with
    | root =>
        refine ⟨_, knot_symmetric.writer_eq, fun p member => ?_⟩
        simp only [Layout.parts, knotFields, knotGraph, List.zip_cons_cons, List.zip_nil_right,
          List.mem_cons, List.not_mem_nil, or_false] at member
        rcases member with rfl | rfl | rfl
        · exact .number 1 (by decide)
        · exact .absent
        · exact .anyShared
    | content =>
        refine ⟨_, knot_symmetric.writer_eq, fun p member => ?_⟩
        simp only [Layout.parts, knotFields, List.zip_cons_cons, List.zip_nil_right, List.mem_cons,
          List.not_mem_nil, or_false] at member
        rcases member with rfl | rfl | rfl
        · exact .number 7 (by decide)
        · exact .present
        · exact .anyShared
    | present =>
        refine ⟨_, rfl, fun p member => ?_⟩
        rw [List.mem_singleton.mp member]
        exact .shared
    | number _ _ | absent | shared | anyShared => exact ⟨_, rfl, by simp [Layout.parts]⟩
  · intro s id cell place found
    have zero : id = 0 := by cases place <;> rfl
    subst zero
    obtain rfl := Option.some.inj found
    exact .content

theorem knot_faithful : knotRegistry.Faithful {} knotGraph.heap knot knotGraph.root := by
  intro s u place
  cases knot_places place with
  | root | content => exact ⟨_, knot_symmetric, .record rfl⟩
  | number n holds => exact ⟨_, .of_handler rfl rfl rfl rfl trivial, .scalar holds⟩
  | absent => exact ⟨_, .of_handler rfl rfl rfl rfl trivial, .absent _⟩
  | present => exact ⟨_, .of_handler rfl rfl rfl rfl trivial, .present _ _⟩
  | shared => exact ⟨_, ⟨rfl, rfl, knot_makes_shared⟩, .shared _ _⟩
  | anyShared => exact ⟨_, .of_handler rfl rfl rfl rfl trivial, .anyShared _⟩

theorem knot_written :
    Written knotRegistry {} knotGraph.heap 512 knot knotGraph.root #[] knotOctets #[0] := by
  have seen : #[0].idxOf? 0 = some 0 := by
    rw [List.idxOf?_toArray]
    rfl
  have form : Written knotRegistry {} knotGraph.heap 512 knot knotGraph.root #[] _ #[0] :=
    .parts knot_symmetric.writer_eq (.record _ _ rfl)
      (.cons (.leaf rfl (.scalar .u32 1))
        (.cons (.leaf rfl (.absent _))
          (.cons (.fresh (n := 511) rfl rfl (.anyShared rfl) (by simp) (by decide)
            (.parts knot_symmetric.writer_eq (.record _ _ rfl)
              (.cons (.leaf rfl (.scalar .u32 7))
                (.cons (.parts rfl (.present _ _)
                    (.cons (.known rfl rfl (.shared knot) seen) .nil))
                  (.cons (.known rfl rfl (.anyShared rfl) seen) .nil)))))
            .nil)))
  exact form

theorem knot_snapshot : knotRegistry.snapshot {} knotGraph = (.ok knotOctets, 0) :=
  Registry.snapshot_of_written rfl knot_written 0

theorem restore_snapshot_isomorphic_knot :
    knotRegistry.tags.length ≤ leBound 4 ∧
      knotRegistry.Faithful {} knotGraph.heap knotGraph.type knotGraph.root ∧
      knotRegistry.snapshot {} knotGraph = (.ok knotOctets, 0) ∧
      ∃ g' f, knotRegistry.restore {} knotGraph.type knotOctets = .ok g' ∧
        knotGraph.Isomorphism g' f ∧
        ∃ ws rs root, knotRegistry.writeGraph {} knotGraph 0 = .ok () ws ∧
          knotRegistry.readGraph {} knotGraph.type knotOctets = .ok root rs ∧
          ws.visited.size = rs.bound.size :=
  ⟨by decide, knot_faithful, knot_snapshot,
    restore_snapshot_isomorphic (by decide) knot_faithful knot_snapshot⟩

end Chronicle
