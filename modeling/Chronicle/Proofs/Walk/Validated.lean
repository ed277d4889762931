import Chronicle.Proofs.Walk.Canonical
import Chronicle.Proofs.Walk.ReadConfigured
import Chronicle.Proofs.Walk.WriteConfigured

/-!
# Eager validation is sound

What validation has seen when a registry is built is enough for every walk from
a declared root.  Restoring cannot be led to a type without its operations by
any octets, also not behind polymorphic references, and writing a value of the
root's type finds a handler for everything in it.
-/

namespace Chronicle

open Success

namespace Registry

variable {r : Registry} {o : WalkOptions} {root : Ty}

/-- A host with a resolver, or one that no path leads to an asset for, supports
the roots of a validated registry. -/
theorem Validated.supports (validated : r.Validated) (demanded : r.Demanded root)
    (assets : o.assets.isSome = true ∨
      ∀ s content, r.Leads root s → r.reader s ≠ .ok (.asset content)) :
    (r.readContext o).Supports root := by
  intro s leads
  obtain ⟨layout, found, admitted, _, makes⟩ :=
    validated.reads (validated.demanded_of_leads demanded leads)
  refine ⟨layout, found, admitted, makes, fun _ s listed => validated.makable (.content listed), ?_⟩
  rintro content rfl
  exact assets.resolve_right fun none_leads => none_leads s content leads found

theorem Validated.not_misconfigured_of_snapshot (validated : r.Validated) {g : Graph}
    {counter next : Nat} {e : WalkError} (demanded : r.Demanded g.type)
    (typed : r.Typed g.heap g.type g.root) (failed : r.snapshot o g counter = (.error e, next)) :
    ¬ r.Misconfigured e := by
  have written : Avoids r.Misconfigured (r.writeGraph o g counter) := by
    rw [writeGraph, Write.walk, Write.valueAt_eq]
    exact Write.value_avoids (c := r.writeContext o g) validated o.limits.maxDepth g.type g.root
      demanded typed _
  unfold snapshot at failed
  cases run : r.writeGraph o g counter with
  | ok u s =>
      rw [run] at failed
      cases failed
  | error e' s =>
      rw [run] at failed
      obtain rfl := Except.error.inj (congrArg Prod.fst failed)
      exact written.not_bad run

end Registry

/-- In a built registry of handlers that keep to their declarations, restoring a
declared root never fails by configuration, whatever the octets and the limits,
as long as an asset resolver is there or no asset can be met.  A snapshot of a
value of the root's type never fails for want of a handler or an operation, at a
value of another type, or at a guard. -/
theorem validation_sound {b : Builder} {r : Registry} {root : Ty} (reached : b.Reached)
    (built : b.build = .ok r)
    (honest : ∀ type h, r.find? type = some h → h.kind = .value → h.Honest r)
    (declared : root ∈ r.roots) :
    (∀ (o : WalkOptions) (bs : Bytes) (e : WalkError),
      (o.assets.isSome = true ∨
        ∀ s content, r.Leads root s → r.reader s ≠ .ok (.asset content)) →
      r.restore o root bs = .error e → e.kind ≠ .configuration) ∧
    ∀ (o : WalkOptions) (g : Graph) (counter next : Nat) (e : WalkError), g.type = root →
      r.Typed g.heap g.type g.root → r.snapshot o g counter = (.error e, next) →
      ¬ r.Misconfigured e := by
  have validated := Registry.validated_of_build reached built honest
  have demanded : r.Demanded root := ⟨true, .root declared⟩
  constructor
  · intro o bs e assets failed
    exact Registry.kind_of_restore (validated.supports demanded assets)
      (validated.makable (.root declared)) failed
  · rintro o g counter next e rfl typed failed
    exact validated.not_misconfigured_of_snapshot demanded typed failed

/-! ## The knot -/

theorem knot_honest (type : Ty) (h : Handler) (found : knotRegistry.find? type = some h)
    (_ : h.kind = .value) : h.Honest knotRegistry := by
  have same : h.type = type := by simpa using List.find?_some found
  have own : knotRegistry.find? h.type = some h := by rw [same, found]
  rcases List.mem_append.mp (List.mem_of_find?_eq_some found) with basic | added
  · exact Handler.Provided.honest (.basic basic) own
  · simp only [List.mem_cons, List.not_mem_nil, or_false] at added
    rcases added with rfl | rfl | rfl
    · exact Handler.Provided.honest (.shared knot) own
    · exact Handler.Provided.honest (.option (.shared knot)) own
    · refine .of_fields own rfl rfl rfl ?_ rfl fun _ => ⟨_, rfl, ?_⟩
      · intro type member
        exact ⟨Handler.inPlace type, List.mem_map_of_mem member, rfl⟩
      · exact .cons (.of_reader rfl rfl _)
          (.cons (.of_reader rfl rfl _) (.cons (.of_reader rfl rfl _) .nil))

theorem knot_typed : knotRegistry.Typed knotGraph.heap knot knotGraph.root := by
  have inside : knotGraph.heap[0]? =
      some ⟨knot, .list [.int 7, .present (.object 0), .object 0]⟩ := rfl
  intro s u place layout written
  cases knot_places place with
  | root | content =>
      obtain rfl := Except.ok.inj (knot_symmetric.writer_eq.symm.trans written)
      exact .record rfl
  | number n _ =>
      obtain rfl : Layout.scalar .u32 = layout := Except.ok.inj written
      exact .scalar _ n
  | absent =>
      obtain rfl : Layout.option (.shared knot) = layout := Except.ok.inj written
      exact .absent _
  | present =>
      obtain rfl : Layout.option (.shared knot) = layout := Except.ok.inj written
      exact .present _ _
  | shared =>
      obtain rfl : Layout.shared knot = layout := Except.ok.inj written
      exact .shared inside
  | anyShared =>
      obtain rfl : Layout.anyShared = layout := Except.ok.inj written
      exact .anyShared inside

theorem validation_sound_knot :
    knotBuilder.Reached ∧ knotBuilder.build = .ok knotRegistry ∧ knot ∈ knotRegistry.roots ∧
      (∀ (bs : Bytes) (e : WalkError), knotRegistry.restore {} knot bs = .error e →
        e.kind ≠ .configuration) ∧
      knotRegistry.Typed knotGraph.heap knot knotGraph.root ∧
      ∀ (o : WalkOptions) (counter next : Nat) (e : WalkError),
        knotRegistry.snapshot o knotGraph counter = (.error e, next) →
        ¬ knotRegistry.Misconfigured e := by
  have declared : knot ∈ knotRegistry.roots := List.mem_singleton_self knot
  have sound := validation_sound knot_reached knot_built knot_honest declared
  have no_assets : ∀ s content, knotRegistry.Leads knot s →
      knotRegistry.reader s ≠ .ok (.asset content) := by
    intro s content leads found
    obtain ⟨h, layout, handler, canonical⟩ := knot_handlers s leads
    have read := Registry.reader_of_find? handler canonical.reader_eq
    obtain rfl := Except.ok.inj (read.symm.trans found)
    exact canonical.canonical
  exact ⟨knot_reached, knot_built, declared, fun bs e => sound.1 {} bs e (.inr no_assets),
    knot_typed, fun o counter next e => sound.2 o knotGraph counter next e rfl knot_typed⟩

end Chronicle
