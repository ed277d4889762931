import Chronicle.Proofs.Success
import Chronicle.Proofs.Walk.Renaming
import Chronicle.Proofs.Walk.RoundTrip
import Chronicle.Proofs.Walk.WriteSteps

/-!
# Two hosts that write one graph

Two hosts hold the same graph when their objects correspond one to one, however
they lie in the heaps, and their handles of assets correspond.  The two walks
then go side by side: at each step they have written the same octets and have
met corresponding objects in the same order, and where one fails the other fails
with the same error.
-/

namespace Chronicle

/-! ## Handles of another host -/

namespace Value

mutual

def rehandle (k : AssetHandle → AssetHandle) : Value → Value
  | .asset handle => .asset (k handle)
  | .present v => .present (rehandle k v)
  | .list items => .list (rehandleAll k items)
  | .entry key v => .entry (rehandle k key) (rehandle k v)
  | v => v

def rehandleAll (k : AssetHandle → AssetHandle) : List Value → List Value
  | [] => []
  | v :: rest => rehandle k v :: rehandleAll k rest

end

end Value

def Heap.rehandle (h : Heap) (k : AssetHandle → AssetHandle) : Heap :=
  h.map fun cell => { cell with content := cell.content.rehandle k }

def Graph.rehandle (g : Graph) (k : AssetHandle → AssetHandle) : Graph :=
  { g with root := g.root.rehandle k, heap := g.heap.rehandle k }

/-! ## Runs side by side -/

section Parallel

variable {ε σ α β : Type} {R : σ → σ → Prop}

inductive SameOutcome (R : σ → σ → Prop) :
    EStateM.Result ε σ α → EStateM.Result ε σ α → Prop
  | ok {a : α} {s s' : σ} : R s s' → SameOutcome R (.ok a s) (.ok a s')
  | error {e : ε} {s s' : σ} : R s s' → SameOutcome R (.error e s) (.error e s')

def Parallel (R : σ → σ → Prop) (x x' : EStateM ε σ α) : Prop :=
  ∀ s s', R s s' → SameOutcome R (x s) (x' s')

namespace Parallel

theorem pure (a : α) : Parallel R (pure a : EStateM ε σ α) (pure a) :=
  fun _ _ related => .ok related

theorem throw (e : ε) : Parallel R (throw e : EStateM ε σ α) (throw e) :=
  fun _ _ related => .error related

theorem bind {x x' : EStateM ε σ α} {y y' : α → EStateM ε σ β} (first : Parallel R x x')
    (next : ∀ a, Parallel R (y a) (y' a)) : Parallel R (x >>= y) (x' >>= y') := by
  intro s s' related
  have outcome := first s s' related
  generalize run : x s = result at outcome
  generalize run' : x' s' = result' at outcome
  cases outcome with
  | ok states =>
      rw [Success.bind_of_ok run, Success.bind_of_ok run']
      exact next _ _ _ states
  | error states =>
      rw [Success.bind_of_error run, Success.bind_of_error run']
      exact .error states

theorem bind_liftResult {R : σ → σ → Prop} {result : Except WalkError α}
    {y y' : α → EStateM WalkError σ β}
    (next : ∀ a, result = .ok a → Parallel R (y a) (y' a)) :
    Parallel R (liftResult result >>= y) (liftResult result >>= y') := by
  cases result with
  | ok a => exact next a rfl
  | error e => exact throw e

end Parallel

end Parallel

theorem idxOf?_map_of_apart {f : Nat → Nat} {met : Array Nat} {id : Nat}
    (apart : ∀ a ∈ met, f a = f id → a = id) : (met.map f).idxOf? (f id) = met.idxOf? id := by
  cases known : met.idxOf? id with
  | some number => exact idxOf?_map apart known
  | none =>
      rw [Array.idxOf?_eq_none_iff] at known ⊢
      intro member
      obtain ⟨a, old, same⟩ := Array.mem_map.mp member
      exact known (apart a old same ▸ old)

namespace Write

variable {c c' : WriteContext} {k : AssetHandle → AssetHandle} {f : Nat → Nat} {P : Nat → Prop}

/-- Two hosts with one registry and one limit, whose objects and assets
correspond. -/
structure Peers (c c' : WriteContext) (k : AssetHandle → AssetHandle) (f : Nat → Nat)
    (P : Nat → Prop) : Prop where
  registry_eq : c'.registry = c.registry
  depth_eq : c'.maxDepth = c.maxDepth
  copies : (c.heap.rehandle k).Copies c'.heap f P
  borrowed : ∀ id, P id → (f id ∈ c'.borrowed ↔ id ∈ c.borrowed)
  paths : ∀ handle, c'.assets.map (·.pathOf (k handle)) = c.assets.map (·.pathOf handle)

/-- The same octets, and corresponding objects met in the same order.  The
running number of a host matters only where some handler writes it. -/
structure Abreast (r : Registry) (f : Nat → Nat) (P : Nat → Prop) (s s' : WriteState) : Prop where
  out_eq : s'.out = s.out
  visited_eq : s'.visited = s.visited.map f
  known : ∀ id ∈ s.visited, P id
  counter_eq : ∀ type, r.writer type = .ok .counter → s'.counter = s.counter

abbrev Inside (P : Nat → Prop) (k : AssetHandle → AssetHandle) (v : Value) : Prop :=
  ∀ id ∈ (v.rehandle k).references, P id

abbrev InsideAll (P : Nat → Prop) (k : AssetHandle → AssetHandle) (vs : List Value) : Prop :=
  ∀ id ∈ Value.referencesAll (Value.rehandleAll k vs), P id

theorem InsideAll.head {v : Value} {rest : List Value} (inside : InsideAll P k (v :: rest)) :
    Inside P k v := fun id member => inside id (List.mem_append_left _ member)

theorem InsideAll.tail {v : Value} {rest : List Value} (inside : InsideAll P k (v :: rest)) :
    InsideAll P k rest := fun id member => inside id (List.mem_append_right _ member)

def Matched (r : Registry) (k : AssetHandle → AssetHandle) (f : Nat → Nat) (P : Nat → Prop)
    (walk walk' : Ty → Value → Write Unit) : Prop :=
  ∀ type v, Inside P k v →
    Parallel (Abreast r f P) (walk type v) (walk' type ((v.rehandle k).rename f))

/-! ## Single steps -/

variable {r : Registry}

theorem emit_parallel (act : Writing Unit) : Parallel (Abreast r f P) (emit act) (emit act) := by
  intro s s' related
  unfold emit
  rw [related.out_eq]
  cases act s.out with
  | ok a out => exact .ok { related with out_eq := rfl }
  | error e out => exact .error { related with out_eq := rfl }

theorem counter_parallel {type : Ty} (found : r.writer type = .ok .counter) :
    Parallel (Abreast r f P) counter counter := by
  intro s s' related
  have same := related.counter_eq type found
  have moved : Abreast r f P { s with counter := s.counter + 1 }
      { s' with counter := s'.counter + 1 } :=
    { related with counter_eq := fun _ _ => by rw [same] }
  have number := emit_parallel (Writing.scalar .u32 s.counter) _ _ moved
  have step : ∀ t : WriteState, counter t =
      emit (Writing.scalar .u32 t.counter) { t with counter := t.counter + 1 } := fun _ => rfl
  rw [step, step, same]
  rw [same] at number
  exact number

theorem reference_parallel (copies : (c.heap.rehandle k).Copies c'.heap f P) {id : Nat}
    (inside : P id) : Parallel (Abreast r f P) (reference id) (reference (f id)) := by
  intro s s' related
  have number : s'.visited.idxOf? (f id) = s.visited.idxOf? id := by
    rw [related.visited_eq]
    exact idxOf?_map_of_apart fun a member => copies.apart a id (related.known a member) inside
  have size : s'.visited.size = s.visited.size := by rw [related.visited_eq, Array.size_map]
  unfold reference
  rw [Success.get_bind, Success.get_bind, number, size]
  cases s.visited.idxOf? id with
  | some known => exact (Parallel.bind (emit_parallel _) fun _ => .pure _) _ _ related
  | none =>
      by_cases full : leBound 4 ≤ s.visited.size
      · simp only [full, ↓reduceIte]
        exact .error related
      · simp only [full, ↓reduceIte]
        have met : Abreast r f P { s with visited := s.visited.push id }
            { s' with visited := s'.visited.push (f id) } := by
          refine { related with visited_eq := ?_, known := ?_ }
          · rw [related.visited_eq, Array.map_push]
          · intro a member
            rcases Array.mem_push.mp member with old | rfl
            · exact related.known a old
            · exact inside
        have numbered : Parallel (Abreast r f P)
            (do marker newMarker s.visited.size; return true)
            (do marker newMarker s.visited.size; return true) :=
          .bind (emit_parallel _) fun _ => .pure true
        exact numbered _ _ met

theorem descend_parallel (peers : Peers c c' k f P) {lower lower' : Lower}
    (lowers : Option.Rel (Matched r k f P) lower lower')
    {act act' : (Ty → Value → Write Unit) → Write Unit}
    (acts : ∀ walk walk', Matched r k f P walk walk' →
      Parallel (Abreast r f P) (act walk) (act' walk')) :
    Parallel (Abreast r f P) (descend c lower act) (descend c' lower' act') := by
  cases lowers with
  | none =>
      rw [descend, descend, peers.depth_eq]
      exact .throw _
  | some walks => exact acts _ _ walks

theorem unborrowed_parallel (peers : Peers c c' k f P) {id : Nat} (inside : P id) (content : Ty) :
    Parallel (Abreast r f P) (unborrowed c id content) (unborrowed c' (f id) content) := by
  unfold unborrowed
  by_cases held : id ∈ c.borrowed
  · simp only [held, (peers.borrowed id inside).mpr held, ↓reduceIte]
    exact .throw _
  · simp only [held, mt (peers.borrowed id inside).mp held, ↓reduceIte]
    exact .pure ()

theorem Peers.cell (peers : Peers c c' k f P) {id : Nat} (inside : P id) :
    ∃ cell, c.heap[id]? = some cell ∧ Inside P k cell.content ∧
      c'.heap[f id]? = some { cell with content := (cell.content.rehandle k).rename f } := by
  obtain ⟨copy, found, there⟩ := peers.copies.copied id inside
  have closed := peers.copies.closed id copy inside found
  rw [Heap.rehandle, Array.getElem?_map, Option.map_eq_some_iff] at found
  obtain ⟨cell, found, rfl⟩ := found
  exact ⟨cell, found, closed, there⟩

theorem shared_parallel (peers : Peers c c' k f P) {lower lower' : Lower}
    (lowers : Option.Rel (Matched r k f P) lower lower') {id : Nat} (inside : P id)
    (content : Ty) :
    Parallel (Abreast r f P) (shared c lower content id) (shared c' lower' content (f id)) := by
  obtain ⟨cell, found, closed, there⟩ := peers.cell inside
  unfold shared
  simp only [found, there]
  by_cases same : cell.type = content
  · simp only [same, ↓reduceIte]
    refine .bind (reference_parallel peers.copies inside) fun fresh => ?_
    cases fresh with
    | false => exact .pure ()
    | true =>
        exact .bind (unborrowed_parallel peers inside content) fun _ =>
          descend_parallel peers lowers fun _ _ walks => walks content _ closed
  · simp only [same, ↓reduceIte]
    exact .throw _

theorem anyShared_parallel (peers : Peers c c' k f P) {lower lower' : Lower}
    (lowers : Option.Rel (Matched r k f P) lower lower') {id : Nat} (inside : P id) :
    Parallel (Abreast r f P) (anyShared c lower id) (anyShared c' lower' (f id)) := by
  obtain ⟨cell, found, closed, there⟩ := peers.cell inside
  unfold anyShared
  simp only [found, there, peers.registry_eq]
  cases c.registry.tag? cell.type with
  | none => exact .throw _
  | some tag =>
      refine .bind (reference_parallel peers.copies inside) fun fresh => ?_
      cases fresh with
      | false => exact .pure ()
      | true =>
          exact .bind (emit_parallel _) fun _ => descend_parallel peers lowers fun _ _ walks =>
            .bind (unborrowed_parallel peers inside cell.type) fun _ => walks cell.type _ closed

theorem asset_parallel (peers : Peers c c' k f P) (content : Ty) (handle : AssetHandle) :
    Parallel (Abreast r f P) (asset c content handle) (asset c' content (k handle)) := by
  have same := peers.paths handle
  unfold asset
  cases here : c.assets with
  | none =>
      cases there : c'.assets with
      | none => exact .throw _
      | some resolver' => simp [here, there] at same
  | some resolver =>
      cases there : c'.assets with
      | none => simp [here, there] at same
      | some resolver' =>
          simp only [here, there, Option.map_some, Option.some.injEq] at same
          simp only [same]
          cases resolver.pathOf handle with
          | none => exact .throw _
          | some path => exact emit_parallel _

theorem packed_parallel (type : Ty) (format : Plain.PackedFormat) (d : Plain.Datum) :
    Parallel (Abreast r f P) (packed type format d) (packed type format d) := by
  unfold packed
  cases Plain.checkOrder d with
  | error e => exact .throw _
  | ok _ =>
      cases format.encode d with
      | error reason => exact .throw _
      | ok bs => exact emit_parallel _

/-! ## Values -/

theorem eachField_parallel {walk walk' : Ty → Value → Write Unit}
    (walks : Matched r k f P walk walk') : ∀ (types : List Ty) (vs : List Value),
    InsideAll P k vs → Parallel (Abreast r f P) (eachField walk types vs)
      (eachField walk' types (Value.renameAll f (Value.rehandleAll k vs)))
  | [], [], _ => .pure ()
  | type :: types, v :: rest, inside =>
      .bind (walks type v inside.head) fun _ => eachField_parallel walks types rest inside.tail
  | [], _ :: _, _ | _ :: _, [], _ => .throw _

theorem whole_parallel (peers : Peers c c' k f P) {lower lower' : Lower}
    (lowers : Option.Rel (Matched c.registry k f P) lower lower') {type : Ty} {layout : Layout}
    (found : c.registry.writer type = .ok layout) (v : Value) (inside : Inside P k v) :
    Parallel (Abreast c.registry f P) (whole c lower type layout v)
      (whole c' lower' type layout ((v.rehandle k).rename f)) := by
  cases layout with
  | nothing => exact .pure ()
  | counter => exact counter_parallel found
  | refused container alternative => exact .throw _
  | nested fields =>
      cases v with
      | list vs =>
          exact descend_parallel peers lowers fun _ _ walks =>
            eachField_parallel walks fields vs inside
      | _ => exact .throw _
  | shared content =>
      cases v with
      | object id =>
          exact shared_parallel peers lowers (inside id (List.mem_singleton_self id)) content
      | _ => exact .throw _
  | anyShared =>
      cases v with
      | object id => exact anyShared_parallel peers lowers (inside id (List.mem_singleton_self id))
      | _ => exact .throw _
  | asset content =>
      cases v with
      | asset handle => exact asset_parallel peers content handle
      | _ => exact .throw _
  | packed format =>
      cases v with
      | plain d => exact packed_parallel type format d
      | _ => exact .throw _
  | _ =>
      cases v <;> first
        | exact .throw _
        | (simp only [Value.rehandle, Value.rename, whole]; exact emit_parallel _)

theorem value_parallel_of_atomic (peers : Peers c c' k f P) {lower lower' : Lower}
    (lowers : Option.Rel (Matched c.registry k f P) lower lower') (type : Ty) {v : Value}
    (atomic : Atomic v) (inside : Inside P k v) :
    Parallel (Abreast c.registry f P) (value c lower type v)
      (value c' lower' type ((v.rehandle k).rename f)) := by
  have unfolded : ∀ (c : WriteContext) (lower : Lower) {v : Value}, Atomic v →
      value c lower type v =
        liftResult (c.registry.writer type) >>= fun layout => whole c lower type layout v := by
    intro c lower v atomic
    cases v with
    | list _ | present _ => exact atomic.elim
    | _ => rw [value] <;> simp
  have moved : Atomic ((v.rehandle k).rename f) := by
    cases v <;> first | exact atomic.elim | trivial
  rw [unfolded c lower atomic, unfolded c' lower' moved, peers.registry_eq]
  exact .bind_liftResult fun layout found => whole_parallel peers lowers found v inside

theorem length_rename_rehandle (vs : List Value) :
    (Value.renameAll f (Value.rehandleAll k vs)).length = vs.length := by
  induction vs with
  | nil => rfl
  | cons v rest ih => simpa [Value.rehandleAll, Value.renameAll] using ih

mutual

theorem value_parallel (peers : Peers c c' k f P) {lower lower' : Lower}
    (lowers : Option.Rel (Matched c.registry k f P) lower lower') :
    ∀ (type : Ty) (v : Value), Inside P k v →
      Parallel (Abreast c.registry f P) (value c lower type v)
        (value c' lower' type ((v.rehandle k).rename f))
  | type, .list vs, inside => by
      rw [Value.rehandle, Value.rename, value, value, peers.registry_eq]
      refine .bind_liftResult fun layout found => ?_
      have other := whole_parallel peers lowers found (.list vs) inside
      cases layout with
      | seq item | set item order =>
          simp only [length_rename_rehandle]
          exact .bind (emit_parallel _) fun _ => eachItem_parallel peers lowers item vs inside
      | map keyType valueType order =>
          simp only [length_rename_rehandle]
          exact .bind (emit_parallel _) fun _ =>
            eachEntry_parallel peers lowers keyType valueType vs inside
      | record fields => exact fieldsInPlace_parallel peers lowers fields vs inside
      | _ => exact other
  | type, .present v, inside => by
      rw [Value.rehandle, Value.rename, value, value, peers.registry_eq]
      refine .bind_liftResult fun layout found => ?_
      have other := whole_parallel peers lowers found (.present v) inside
      cases layout with
      | option item =>
          exact .bind (emit_parallel _) fun _ => value_parallel peers lowers item v inside
      | _ => exact other
  | type, .unit, inside | type, .bool _, inside | type, .int _, inside | type, .text _, inside
  | type, .bytes _, inside | type, .plain _, inside | type, .absent, inside
  | type, .entry _ _, inside | type, .object _, inside | type, .nothing, inside
  | type, .asset _, inside => value_parallel_of_atomic peers lowers type trivial inside

theorem eachItem_parallel (peers : Peers c c' k f P) {lower lower' : Lower}
    (lowers : Option.Rel (Matched c.registry k f P) lower lower') (item : Ty) :
    ∀ vs : List Value, InsideAll P k vs →
      Parallel (Abreast c.registry f P) (eachItem c lower item vs)
        (eachItem c' lower' item (Value.renameAll f (Value.rehandleAll k vs)))
  | [], _ => .pure ()
  | v :: rest, inside => by
      simp only [Value.rehandleAll, Value.renameAll, eachItem]
      exact .bind (value_parallel peers lowers item v inside.head) fun _ =>
        eachItem_parallel peers lowers item rest inside.tail

theorem eachEntry_parallel (peers : Peers c c' k f P) {lower lower' : Lower}
    (lowers : Option.Rel (Matched c.registry k f P) lower lower') (keyType valueType : Ty) :
    ∀ vs : List Value, InsideAll P k vs →
      Parallel (Abreast c.registry f P) (eachEntry c lower keyType valueType vs)
        (eachEntry c' lower' keyType valueType (Value.renameAll f (Value.rehandleAll k vs)))
  | [], _ => .pure ()
  | .entry key v :: rest, inside => by
      simp only [Value.rehandleAll, Value.renameAll, Value.rehandle, Value.rename, eachEntry]
      refine .bind (value_parallel peers lowers keyType key fun id member =>
        inside.head id (List.mem_append_left _ member)) fun _ => ?_
      refine .bind (value_parallel peers lowers valueType v fun id member =>
        inside.head id (List.mem_append_right _ member)) fun _ => ?_
      exact eachEntry_parallel peers lowers keyType valueType rest inside.tail
  | .unit :: _, _ | .bool _ :: _, _ | .int _ :: _, _ | .text _ :: _, _ | .bytes _ :: _, _
  | .plain _ :: _, _ | .absent :: _, _ | .present _ :: _, _ | .list _ :: _, _
  | .object _ :: _, _ | .nothing :: _, _ | .asset _ :: _, _ => .throw _

theorem fieldsInPlace_parallel (peers : Peers c c' k f P) {lower lower' : Lower}
    (lowers : Option.Rel (Matched c.registry k f P) lower lower') :
    ∀ (types : List Ty) (vs : List Value), InsideAll P k vs →
      Parallel (Abreast c.registry f P) (fieldsInPlace c lower types vs)
        (fieldsInPlace c' lower' types (Value.renameAll f (Value.rehandleAll k vs)))
  | [], [], _ => .pure ()
  | _ :: _, [], _ | [], _ :: _, _ => .throw _
  | type :: types, v :: rest, inside => by
      simp only [Value.rehandleAll, Value.renameAll, fieldsInPlace]
      exact .bind (value_parallel peers lowers type v inside.head) fun _ =>
        fieldsInPlace_parallel peers lowers types rest inside.tail

end

theorem valueAt_parallel (peers : Peers c c' k f P) (n : Nat) :
    Matched c.registry k f P (valueAt c n) (valueAt c' n) := by
  induction n with
  | zero => exact value_parallel peers .none
  | succ n ih => exact value_parallel peers (.some ih)

end Write

/-- Hosts that hold the same graph, under the same limits and with the same
paths for their assets, write the same octets or fail with the same error.
Nothing that was borrowed in one may be free in the other, and the running
numbers of the hosts have to agree if some handler writes them. -/
theorem snapshot_eq_of_isomorphism {r : Registry} {o o' : WalkOptions} {g g' : Graph}
    {k : AssetHandle → AssetHandle} {f : Nat → Nat}
    (isomorphism : (g.rehandle k).Isomorphism g' f) (limits : o'.limits = o.limits)
    (paths : ∀ handle, o'.assets.map (·.pathOf (k handle)) = o.assets.map (·.pathOf handle))
    (borrowed : ∀ id, (g.rehandle k).Reaches id → (f id ∈ g'.borrowed ↔ id ∈ g.borrowed))
    {counter counter' : Nat} (counted : ∀ type, r.writer type = .ok .counter → counter' = counter) :
    (r.snapshot o' g' counter').1 = (r.snapshot o g counter).1 := by
  have copies : (g.heap.rehandle k).Copies g'.heap f (g.rehandle k).Reaches := by
    constructor
    · exact fun _ _ reached found _ member => .step reached found member
    · exact fun a b reachedA reachedB => isomorphism.bijective.injOn reachedA reachedB
    · exact isomorphism.cell_eq
  have peers : Write.Peers (r.writeContext o g) (r.writeContext o' g') k f (g.rehandle k).Reaches :=
    ⟨rfl, congrArg WalkLimits.maxDepth limits, copies, borrowed, paths⟩
  have starts : Write.Abreast r f (g.rehandle k).Reaches
      { out := ByteWriter.withLimit o.limits.maxSequence, counter }
      { out := ByteWriter.withLimit o'.limits.maxSequence, counter := counter' } := by
    constructor
    · rw [limits]
    · exact Array.map_empty.symm
    · exact fun _ member => (Array.not_mem_empty _ member).elim
    · exact counted
  have outcome : SameOutcome (Write.Abreast r f (g.rehandle k).Reaches) (r.writeGraph o g counter)
      (r.writeGraph o' g' counter') := by
    rw [Registry.writeGraph, Registry.writeGraph, isomorphism.type_eq, isomorphism.root_eq]
    unfold Write.walk
    rw [peers.depth_eq]
    exact Write.valueAt_parallel peers _ g.type g.root (fun _ member => .root member) _ _ starts
  unfold Registry.snapshot
  generalize r.writeGraph o g counter = result, r.writeGraph o' g' counter' = result' at outcome
  cases outcome with
  | ok related => simp only [related.out_eq]
  | error _ => rfl

/-! ## A second host for the knot -/

def laterKnot : Graph where
  type := knot
  root := .list [.int 1, .absent, .object 1]
  heap := #[⟨.scalar .u32, .int 5⟩, ⟨knot, .list [.int 7, .present (.object 1), .object 1]⟩]

def AssetHandle.later : AssetHandle → AssetHandle
  | .entry index => .entry (index + 1)
  | .loose content => .loose content

def knotLibrary : AssetLibrary := [⟨some "knot.txt", .unit⟩]

theorem knot_rehandle (k : AssetHandle → AssetHandle) : knotGraph.rehandle k = knotGraph := by
  simp [Graph.rehandle, Heap.rehandle, knotGraph, Value.rehandle, Value.rehandleAll]

theorem laterKnot_isomorphism : knotGraph.Isomorphism laterKnot (· + 1) := by
  have only : ∀ id, knotGraph.Reaches id → id = 0 := by
    intro id reached
    induction reached with
    | root member => simpa [knotGraph, Value.references, Value.referencesAll] using member
    | step _ found member ih =>
        subst ih
        obtain rfl := Option.some.inj found
        simpa [knotGraph, Value.references, Value.referencesAll] using member
  refine .of_copy rfl rfl (fun a _ b _ same => Nat.succ.inj same) fun id reached => ?_
  obtain rfl := only id reached
  exact ⟨_, rfl, rfl⟩

def knotOptions : WalkOptions := { assets := some knotLibrary.resolver }

def laterOptions : WalkOptions :=
  { assets := some (AssetLibrary.resolver (⟨none, .unit⟩ :: knotLibrary)) }

theorem snapshot_eq_of_isomorphism_knot :
    (knotGraph.rehandle .later).Isomorphism laterKnot (· + 1) ∧
      laterOptions.limits = knotOptions.limits ∧
      (knotRegistry.snapshot laterOptions laterKnot).1 =
        (knotRegistry.snapshot knotOptions knotGraph).1 := by
  have isomorphism : (knotGraph.rehandle .later).Isomorphism laterKnot (· + 1) := by
    rw [knot_rehandle]
    exact laterKnot_isomorphism
  have paths : ∀ handle : AssetHandle, laterOptions.assets.map (·.pathOf handle.later) =
      knotOptions.assets.map (·.pathOf handle) := by
    intro handle
    cases handle <;> rfl
  have free : ∀ id, (knotGraph.rehandle .later).Reaches id →
      (id + 1 ∈ laterKnot.borrowed ↔ id ∈ knotGraph.borrowed) := by
    intro id _
    simp [knotGraph, laterKnot]
  have limits : laterOptions.limits = knotOptions.limits := rfl
  exact ⟨isomorphism, limits,
    snapshot_eq_of_isomorphism isomorphism limits paths free fun _ _ => rfl⟩

end Chronicle
