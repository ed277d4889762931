import Chronicle.Proofs.Walk.Grammar
import Chronicle.Proofs.Walk.Isomorphism

/-!
# The written form and the places of objects

A walk that writes meets only objects that can be reached from where it starts,
and where these lie in the heap leaves no trace in the octets: an object has the
number of its place among those met.  So isomorphic graphs have the same written
form.
-/

namespace Chronicle

variable {r : Registry} {o : WalkOptions} {h h' : Heap} {f : Nat → Nat} {P : Nat → Prop}

/-! ## References of parts -/

namespace Layout

variable {layout : Layout} {v : Value} {front bs : Bytes} {id : Nat}

theorem mem_references_of_part {p : Ty × Value} (member : p ∈ layout.parts v)
    (inside : id ∈ p.2.references) : id ∈ v.references := by
  unfold parts at member
  split at member
  case h_1 | h_2 =>
    obtain ⟨w, within, rfl⟩ := List.mem_map.mp member
    exact Value.mem_referencesAll.mpr ⟨w, within, inside⟩
  case h_3 =>
    rw [List.mem_singleton.mp member] at inside
    exact inside
  case h_4 keyType valueType entries =>
    obtain ⟨e, within, member⟩ := List.mem_flatMap.mp member
    refine Value.mem_referencesAll.mpr ⟨e, within, ?_⟩
    cases e with
    | entry k w =>
        simp only [entryParts, List.mem_cons, List.not_mem_nil, or_false] at member
        rw [Value.references]
        rcases member with rfl | rfl
        · exact List.mem_append_left _ inside
        · exact List.mem_append_right _ inside
    | _ => simp [entryParts] at member
  case h_5 | h_6 => exact Value.mem_referencesAll.mpr ⟨p.2, (List.of_mem_zip member).2, inside⟩
  case h_7 => simp at member

theorem Encodes.rename (encodes : layout.Encodes o v bs) : layout.Encodes o (v.rename f) bs := by
  cases encodes with
  | nothing v => exact .nothing _
  | bool b => exact .bool b
  | scalar s n => exact .scalar s n
  | text s admits => exact .text s admits
  | octets bs admits => exact .octets bs admits
  | absent item => exact .absent item
  | packed ordered packed admits => exact .packed ordered packed admits
  | asset assets found admits => exact .asset assets found admits

theorem Opens.rename (opens : layout.Opens o v front) : layout.Opens o (v.rename f) front := by
  have all : ∀ vs : List Value, Value.rename f (.list vs) = .list (vs.map (Value.rename f)) :=
    fun vs => by rw [Value.rename, Value.renameAll_eq_map]
  have length : ∀ vs : List Value, (vs.map (Value.rename f)).length = vs.length :=
    fun vs => List.length_map _
  cases opens with
  | seq item vs admits =>
      rw [all, ← length vs]
      exact .seq item _ ((length vs).symm ▸ admits)
  | set item order vs admits =>
      rw [all, ← length vs]
      exact .set item order _ ((length vs).symm ▸ admits)
  | map keyType valueType order entries admits shaped =>
      rw [all, ← length entries]
      refine .map keyType valueType order _ ((length entries).symm ▸ admits) ?_
      intro e member
      obtain ⟨e', within, rfl⟩ := List.mem_map.mp member
      obtain ⟨k, w, rfl⟩ := shaped e' within
      exact ⟨k.rename f, w.rename f, rfl⟩
  | present item v => exact .present item _
  | record fields vs full =>
      rw [all]
      exact .record fields _ (full.trans (length vs).symm)

theorem parts_rename (opens : layout.Opens o v front) :
    layout.parts (v.rename f) = (layout.parts v).map fun p => (p.1, p.2.rename f) := by
  cases opens with
  | seq item vs | set item order vs =>
      rw [Value.rename, Value.renameAll_eq_map]
      simp [parts]
  | map keyType valueType order entries _ shaped =>
      rw [Value.rename, Value.renameAll_eq_map, parts, parts, List.flatMap_map, List.map_flatMap]
      refine List.flatMap_congr fun e member => ?_
      obtain ⟨k, w, rfl⟩ := shaped e member
      rfl
  | present item v => rfl
  | record fields vs =>
      rw [Value.rename, Value.renameAll_eq_map, parts, parts, List.zip_map_right]
      rfl

end Layout

/-! ## Objects met -/

def Heap.Closed (h : Heap) (P : Nat → Prop) : Prop :=
  ∀ id cell, P id → h[id]? = some cell → ∀ next ∈ cell.content.references, P next

mutual

theorem Written.met_of_closed (closed : h.Closed P) : ∀ {n : Nat} {type : Ty} {v : Value}
    {met met' : Array Nat} {bs : Bytes}, Written r o h n type v met bs met' →
    (∀ id ∈ v.references, P id) → (∀ id ∈ met, P id) → ∀ id ∈ met', P id
  | _, _, _, _, _, _, .leaf _ _, _, known => known
  | _, _, _, _, _, _, .parts _ _ all, inside, known =>
      all.met_of_closed closed
        (fun _ part id member => inside id (Layout.mem_references_of_part part member)) known
  | _, _, _, _, _, _, .nested _ _ all, inside, known =>
      all.met_of_closed closed (fun p part id member =>
        inside id (Value.mem_referencesAll.mpr ⟨p.2, (List.of_mem_zip part).2, member⟩)) known
  | _, _, _, _, _, _, .known _ _ _ _, _, known => known
  | _, _, _, _, _, _, @Written.fresh _ _ _ _ _ _ id cell _ _ _ _ _ found _ _ _ content,
      inside, known => by
      have reached : P id := inside id (List.mem_singleton_self id)
      refine content.met_of_closed closed (closed id cell reached found) fun k member => ?_
      rcases Array.mem_push.mp member with old | rfl
      · exact known k old
      · exact reached

theorem WrittenAll.met_of_closed (closed : h.Closed P) : ∀ {n : Nat} {ps : List (Ty × Value)}
    {met met' : Array Nat} {bs : Bytes}, WrittenAll r o h n ps met bs met' →
    (∀ p ∈ ps, ∀ id ∈ p.2.references, P id) → (∀ id ∈ met, P id) → ∀ id ∈ met', P id
  | _, _, _, _, _, .nil, _, known => known
  | _, _, _, _, _, .cons first rest, inside, known =>
      rest.met_of_closed closed (fun p within => inside p (List.mem_cons_of_mem _ within))
        (first.met_of_closed closed (inside _ List.mem_cons_self) known)

end

theorem Written.reaches {g : Graph} {n : Nat} {bs : Bytes} {met : Array Nat}
    (written : Written r o g.heap n g.type g.root #[] bs met) : ∀ id ∈ met, g.Reaches id :=
  written.met_of_closed (fun _ _ reached found _ member => .step reached found member)
    (fun _ member => .root member) (fun _ member => (Array.not_mem_empty _ member).elim)

/-! ## Objects at other places -/

structure Heap.Copies (h h' : Heap) (f : Nat → Nat) (P : Nat → Prop) : Prop where
  closed : h.Closed P
  apart : ∀ a b, P a → P b → f a = f b → a = b
  copied : ∀ id, P id → ∃ cell, h[id]? = some cell ∧
    h'[f id]? = some { cell with content := cell.content.rename f }

theorem Heap.Copies.copied_of_found (copies : h.Copies h' f P) {id : Nat} {cell : Cell}
    (inside : P id) (found : h[id]? = some cell) :
    h'[f id]? = some { cell with content := cell.content.rename f } := by
  obtain ⟨cell', here, there⟩ := copies.copied id inside
  obtain rfl := Option.some.inj (found.symm.trans here)
  exact there

theorem idxOf?_map {met : Array Nat} {id number : Nat} (apart : ∀ a ∈ met, f a = f id → a = id)
    (known : met.idxOf? id = some number) : (met.map f).idxOf? (f id) = some number := by
  rcases met with ⟨ids⟩
  rw [List.idxOf?_toArray] at known
  rw [List.map_toArray, List.idxOf?_toArray]
  obtain ⟨inside, same, first⟩ := List.idxOf?_eq_some_iff.mp known
  refine List.idxOf?_eq_some_iff.mpr ⟨by rw [List.length_map]; exact inside, ?_, ?_⟩
  · rw [List.getElem_map, same]
  · intro j before
    rw [List.getElem_map]
    intro clash
    exact first j before (apart _ (by simp) clash)

mutual

theorem Written.rename (copies : h.Copies h' f P) : ∀ {n : Nat} {type : Ty} {v : Value}
    {met met' : Array Nat} {bs : Bytes}, Written r o h n type v met bs met' →
    (∀ id ∈ v.references, P id) → (∀ id ∈ met, P id) →
    Written r o h' n type (v.rename f) (met.map f) bs (met'.map f)
  | _, _, _, _, _, _, .leaf found encodes, _, _ => .leaf found encodes.rename
  | _, _, _, _, _, _, .parts found opens all, inside, known => by
      refine .parts found opens.rename ?_
      rw [Layout.parts_rename opens]
      exact all.rename copies
        (fun _ part id member => inside id (Layout.mem_references_of_part part member)) known
  | _, _, _, _, _, _, @Written.nested _ _ _ _ _ fields vs _ _ _ found full all, inside, known => by
      rw [Value.rename, Value.renameAll_eq_map]
      refine .nested found (full.trans (List.length_map _).symm) ?_
      have zipped : fields.zip (vs.map (Value.rename f)) =
          (fields.zip vs).map fun p => (p.1, p.2.rename f) := by
        rw [List.zip_map_right]
        rfl
      rw [zipped]
      exact all.rename copies (fun p part id member =>
        inside id (Value.mem_referencesAll.mpr ⟨p.2, (List.of_mem_zip part).2, member⟩)) known
  | _, _, _, _, _, _, @Written.known _ _ _ _ _ _ id _ _ _ _ found there refers place,
      inside, known => by
      have reached : P id := inside id (List.mem_singleton_self id)
      refine .known found (copies.copied_of_found reached there) refers (idxOf?_map ?_ place)
      exact fun a member => copies.apart a id (known a member) reached
  | _, _, _, _, _, _,
    @Written.fresh _ _ _ _ _ _ id cell met _ _ _ found there refers new small content,
      inside, known => by
      have reached : P id := inside id (List.mem_singleton_self id)
      have apart : f id ∉ met.map f := by
        intro member
        obtain ⟨a, old, same⟩ := Array.mem_map.mp member
        exact new (copies.apart a id (known a old) reached same ▸ old)
      have inner := content.rename copies (copies.closed id cell reached there) (by
        intro k member
        rcases Array.mem_push.mp member with old | rfl
        · exact known k old
        · exact reached)
      rw [Array.map_push] at inner
      rw [← Array.size_map (f := f)] at small ⊢
      exact .fresh found (copies.copied_of_found reached there) refers apart small inner

theorem WrittenAll.rename (copies : h.Copies h' f P) : ∀ {n : Nat} {ps : List (Ty × Value)}
    {met met' : Array Nat} {bs : Bytes}, WrittenAll r o h n ps met bs met' →
    (∀ p ∈ ps, ∀ id ∈ p.2.references, P id) → (∀ id ∈ met, P id) →
    WrittenAll r o h' n (ps.map fun p => (p.1, p.2.rename f)) (met.map f) bs (met'.map f)
  | _, _, _, _, _, .nil, _, _ => .nil
  | _, _, _, _, _, .cons first rest, inside, known =>
      .cons (first.rename copies (inside _ List.mem_cons_self) known)
        (rest.rename copies (fun p within => inside p (List.mem_cons_of_mem _ within))
          (first.met_of_closed copies.closed (inside _ List.mem_cons_self) known))

end

theorem Written.of_isomorphism {g g' : Graph} {n : Nat} {bs : Bytes} {met : Array Nat}
    (isomorphism : g.Isomorphism g' f)
    (written : Written r o g.heap n g.type g.root #[] bs met) :
    Written r o g'.heap n g'.type g'.root #[] bs (met.map f) := by
  have copies : g.heap.Copies g'.heap f g.Reaches := by
    constructor
    · exact fun _ _ reached found _ member => .step reached found member
    · exact fun a b reachedA reachedB => isomorphism.bijective.injOn reachedA reachedB
    · exact isomorphism.cell_eq
  have copy := written.rename copies (fun _ member => .root member)
    (fun _ member => (Array.not_mem_empty _ member).elim)
  rw [Array.map_empty] at copy
  rw [isomorphism.type_eq, isomorphism.root_eq]
  exact copy

end Chronicle
