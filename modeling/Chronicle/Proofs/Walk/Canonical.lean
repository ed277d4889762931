import Chronicle.Limits
import Chronicle.Proofs.Registry.Built
import Chronicle.Proofs.Registry.WellFormed
import Chronicle.Proofs.Walk.Accepting
import Chronicle.Proofs.Walk.Renaming
import Chronicle.Proofs.Walk.RoundTrip

/-!
# Canonical snapshots

Octets that restore a graph are the snapshot of that graph, so no graph has two
encodings, however its objects are placed, and no object that was announced is
lost.  The sets and the maps of a restored graph are in order, which is why they
leave no choice either.  Nothing is assumed of the octets but that they fit a
payload.
-/

namespace Chronicle

open Success

/-! ## Handlers that leave no choice -/

/-- A handler that writes and reads by one canonical layout.  References with a
known type have their own handler, which gives their content a tag. -/
structure Handler.Canonical (h : Handler) (layout : Layout) : Prop where
  writer_eq : h.writer = some layout
  reader_eq : h.reader = some layout
  canonical : layout.Canonical
  reference : ∀ content, layout = .shared content → h = Handler.shared content

namespace Registry

variable {r : Registry} {type : Ty} {h : Handler} {layout : Layout}

/-- In a built registry, types that lead to canonical handlers only are
canonical. -/
theorem canonical_of_handlers {b : Builder} (reached : b.Reached) (built : b.build = .ok r)
    (handlers : ∀ s, r.Leads type s → ∃ h layout, r.find? s = some h ∧ h.Canonical layout) :
    r.Canonical type := by
  intro s leads
  obtain ⟨h, layout, found, canonical⟩ := handlers s leads
  refine ⟨layout, writer_of_find? found canonical.writer_eq,
    reader_of_find? found canonical.reader_eq, canonical.canonical, fun content same => ?_⟩
  have listed : h ∈ r.handlers := List.mem_of_find?_eq_some found
  rw [canonical.reference content same] at listed
  exact reached.mem_tags built listed

end Registry

/-! ## Restored graphs -/

variable {r : Registry} {o : WalkOptions} {type : Ty} {bs bs' : Bytes} {g g' : Graph}

/-- What was read from the front to the end is the written form of the root, in
the heap as it is then. -/
theorem wellWritten_of_readGraph (distinct : r.tags.Nodup) (canonical : r.Canonical type)
    (short : bs.length < leBound 4) {root : Value} {s : ReadState}
    (read : r.readGraph o type bs = .ok root s) (used : s.input.rest = []) :
    WellWritten r o s.heap o.limits.maxDepth type root #[] bs s.bound := by
  let start : ReadState := { input := { rest := bs, limit := o.limits.maxSequence } }
  have sound : start.Sound r o := by
    refine ⟨rfl, List.nodup_nil, fun id member => ?_, ?_⟩
    · exact (Array.not_mem_empty id member).elim
    · change 0 + bs.length < leBound 4
      rw [Nat.zero_add]
      exact short
  have understood := Read.create_understood fun blank =>
    Read.valueAt_understood (o := o) distinct o.limits.maxDepth blank canonical
  obtain ⟨cs, accepted, form⟩ := understood start s root sound read
  have all : bs = cs ++ s.input.rest := accepted.passes.rest_eq
  rw [used, List.append_nil] at all
  rw [all]
  exact form s.heap ⟨fun _ _ _ => rfl, fun _ _ => rfl⟩

theorem wellWritten_of_restore (distinct : r.tags.Nodup) (canonical : r.Canonical type)
    (short : bs.length < leBound 4) (restored : r.restore o type bs = .ok g) :
    ∃ root s, r.readGraph o type bs = .ok root s ∧ g = { type, root, heap := s.heap } ∧
      WellWritten r o g.heap o.limits.maxDepth g.type g.root #[] bs s.bound := by
  obtain ⟨root, s, read, used, rfl⟩ := Registry.restore_eq_ok.mp restored
  exact ⟨root, s, read, rfl, wellWritten_of_readGraph distinct canonical short read used⟩

def Graph.InOrder (g : Graph) (r : Registry) (met : Array Nat) : Prop :=
  r.InOrder g.type g.root ∧
    ∀ id ∈ met, ∃ cell, g.heap[id]? = some cell ∧ r.InOrder cell.type cell.content

theorem WellWritten.inOrder {n : Nat} {met : Array Nat}
    (wellWritten : WellWritten r o g.heap n g.type g.root #[] bs met) : g.InOrder r met :=
  ⟨wellWritten.ordered, fun id member =>
    wellWritten.arranged id member (Array.not_mem_empty id)⟩

/-- A restored graph has the octets as its snapshot.  All objects that were bound
on the way are reached in it, its sets and maps are in order, and octets that
restore an isomorphic graph are the same. -/
theorem snapshot_restore_canonical {b : Builder} (reached : b.Reached) (built : b.build = .ok r)
    (handlers : ∀ s, r.Leads type s → ∃ h layout, r.find? s = some h ∧ h.Canonical layout)
    (short : bs.length ≤ maxPayloadField) (restored : r.restore o type bs = .ok g) :
    (∀ counter, r.snapshot o g counter = (.ok bs, counter)) ∧
      (∃ root s, r.readGraph o type bs = .ok root s ∧ g = { type, root, heap := s.heap } ∧
        (∀ id ∈ s.bound, g.Reaches id) ∧ g.InOrder r s.bound) ∧
      ∀ bs' g' f, bs'.length ≤ maxPayloadField → r.restore o type bs' = .ok g' →
        g.Isomorphism g' f → bs' = bs := by
  have distinct := reached.nodup_tags built
  have canonical := Registry.canonical_of_handlers reached built handlers
  have fits : ∀ n ≤ maxPayloadField, n < leBound 4 :=
    fun n below => Nat.lt_of_le_of_lt below (by decide)
  obtain ⟨root, s, read, same, accepted⟩ :=
    wellWritten_of_restore distinct canonical (fits _ short) restored
  have free : g.borrowed = [] := by rw [same]
  have written := accepted.written
  refine ⟨Registry.snapshot_of_written free written,
    ⟨root, s, read, same, written.reaches, accepted.inOrder⟩, ?_⟩
  intro bs' g' f short' restored' isomorphism
  obtain ⟨_, _, _, same', accepted'⟩ :=
    wellWritten_of_restore distinct canonical (fits _ short') restored'
  have free' : g'.borrowed = [] := by rw [same']
  have here := Registry.snapshot_of_written free' (written.of_isomorphism isomorphism) 0
  have there := Registry.snapshot_of_written free' accepted'.written 0
  rw [here] at there
  simpa using there.symm

/-! ## The knot -/

theorem knot_reached : knotBuilder.Reached := by
  have register : ∀ {b : Builder} {act : Registering Unit} (b' : Builder), b.Reached →
      Builder.Registration act → act b = .ok () b' → b'.Reached :=
    fun b' reached registration run => .step reached registration (.inl run)
  have shared := register _ .basics (.shared knot) (Builder.registerShared_eq knot _)
  have option := register _ shared (.option (.shared knot)) (Builder.register_eq _ _)
  have fields := register _ option (.handler (h := knotHandler) rfl) (Builder.register_eq _ _)
  exact fields.root knot

theorem knot_built : knotBuilder.build = .ok knotRegistry := by
  have complete : knotBuilder.Complete := by
    constructor <;> decide
  rw [complete.build_eq_ok, Builder.tagOrder, knotBuilder, List.mergeSort_singleton]
  rfl

inductive KnotType : Ty → Handler → Layout → Prop
  | knot : KnotType knot knotHandler (.record knotFields)
  | number : KnotType (.scalar .u32) (.scalar .u32) (.scalar .u32)
  | option : KnotType (.option (.shared Chronicle.knot)) (.option (.shared Chronicle.knot))
      (.option (.shared Chronicle.knot))
  | shared : KnotType (.shared Chronicle.knot) (.shared Chronicle.knot) (.shared Chronicle.knot)
  | anyShared : KnotType .anyShared .anyShared .anyShared

theorem KnotType.handler {s : Ty} {h : Handler} {layout : Layout} (known : KnotType s h layout) :
    knotRegistry.find? s = some h ∧ h.Canonical layout := by
  cases known with
  | shared => exact ⟨rfl, rfl, rfl, trivial, fun _ same => by injection same with same; rw [same]⟩
  | _ => exact ⟨rfl, rfl, rfl, trivial, fun _ => by simp⟩

theorem knot_handlers : ∀ s, knotRegistry.Leads knot s →
    ∃ h layout, knotRegistry.find? s = some h ∧ h.Canonical layout := by
  have closed : ∀ s, knotRegistry.Leads knot s → ∃ h layout, KnotType s h layout := by
    intro s leads
    induction leads with
    | self => exact ⟨_, _, .knot⟩
    | component _ found member ih =>
        obtain ⟨h, layout, known⟩ := ih
        have read := Registry.reader_of_find? known.handler.1 known.handler.2.reader_eq
        obtain rfl := Except.ok.inj (read.symm.trans found)
        cases known <;>
          simp only [Layout.components, knotFields, List.mem_cons, List.not_mem_nil,
            or_false] at member
        case knot =>
          rcases member with rfl | rfl | rfl
          · exact ⟨_, _, .number⟩
          · exact ⟨_, _, .option⟩
          · exact ⟨_, _, .anyShared⟩
        case option =>
          subst member
          exact ⟨_, _, .shared⟩
        case shared =>
          subst member
          exact ⟨_, _, .knot⟩
    | tagged _ _ member =>
        obtain rfl := List.mem_singleton.mp member
        exact ⟨_, _, .knot⟩
  intro s leads
  obtain ⟨h, layout, known⟩ := closed s leads
  exact ⟨h, layout, known.handler⟩

theorem snapshot_restore_canonical_knot : ∃ g,
    knotBuilder.Reached ∧ knotBuilder.build = .ok knotRegistry ∧
      knotOctets.length ≤ maxPayloadField ∧ knotRegistry.restore {} knot knotOctets = .ok g ∧
      (∀ counter, knotRegistry.snapshot {} g counter = (.ok knotOctets, counter)) ∧
      (∃ root s, knotRegistry.readGraph {} knot knotOctets = .ok root s ∧
        g = { type := knot, root, heap := s.heap } ∧ (∀ id ∈ s.bound, g.Reaches id) ∧
        g.InOrder knotRegistry s.bound) ∧
      ∀ bs' g' f, bs'.length ≤ maxPayloadField → knotRegistry.restore {} knot bs' = .ok g' →
        g.Isomorphism g' f → bs' = knotOctets := by
  obtain ⟨f, s, read, used, _⟩ := (knot_written.restores (by decide) knot_faithful).readGraph
  have restored := Registry.restore_eq_ok.mpr ⟨_, s, read, used, rfl⟩
  exact ⟨_, knot_reached, knot_built, by decide, restored,
    snapshot_restore_canonical knot_reached knot_built knot_handlers (by decide) restored⟩

end Chronicle
