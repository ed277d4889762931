import Chronicle.Proofs.Walk.Faithful
import Chronicle.Proofs.Walk.Laws
import Chronicle.Proofs.Walk.ReadConfigured
import Chronicle.Proofs.Walk.WriteSteps

/-!
# Writing under a validated registry

A walk that writes a value of a type the registry may be asked for finds a
writer for every part of it, and for the content of every object it enters: one
of the type that a reference names, or of a type with a tag.  It may still fail,
at a limit or where the host has no name for something, but not because the
registry is incomplete.
-/

namespace Chronicle

open Success

/-! ## Values of a type -/

inductive Layout.Shapes (h : Heap) : Layout → Value → Prop
  | nothing (v : Value) : Shapes h .nothing v
  | bool (b : Bool) : Shapes h .bool (.bool b)
  | scalar (k : Scalar) (n : Int) : Shapes h (.scalar k) (.int n)
  | text (s : String) : Shapes h .text (.text s)
  | octets (bs : Bytes) : Shapes h .octets (.bytes bs)
  | seq (item : Ty) (vs : List Value) : Shapes h (.seq item) (.list vs)
  | set (item : Ty) (order : KeyOrder) (vs : List Value) : Shapes h (.set item order) (.list vs)
  | map (keyType valueType : Ty) (order : KeyOrder) {entries : List Value} :
      (∀ e ∈ entries, e.IsEntry) →
      Shapes h (.map keyType valueType order) (.list entries)
  | absent (item : Ty) : Shapes h (.option item) .absent
  | present (item : Ty) (v : Value) : Shapes h (.option item) (.present v)
  | record {fields : List Ty} {vs : List Value} : fields.length = vs.length →
      Shapes h (.record fields) (.list vs)
  | nested {fields : List Ty} {vs : List Value} : fields.length = vs.length →
      Shapes h (.nested fields) (.list vs)
  | shared {id : Nat} {cell : Cell} : h[id]? = some cell → Shapes h (.shared cell.type) (.object id)
  | anyShared {id : Nat} {cell : Cell} : h[id]? = some cell → Shapes h .anyShared (.object id)
  | empty : Shapes h .anyShared .nothing
  | asset (content : Ty) (handle : AssetHandle) : Shapes h (.asset content) (.asset handle)
  | packed (format : Plain.PackedFormat) (d : Plain.Datum) : Shapes h (.packed format) (.plain d)
  | counter (v : Value) : Shapes h .counter v
  | lowOctet (n : Int) : Shapes h .lowOctet (.int n)
  | refused (container alternative : String) (v : Value) :
      Shapes h (.refused container alternative) v

theorem Layout.mem_components_of_part {layout : Layout} {v : Value} {p : Ty × Value}
    (member : p ∈ layout.parts v) : p.1 ∈ layout.components := by
  unfold parts at member
  split at member
  case h_1 vs | h_2 vs =>
    obtain ⟨w, _, rfl⟩ := List.mem_map.mp member
    exact List.mem_singleton_self _
  case h_3 w =>
    rw [List.mem_singleton.mp member]
    exact List.mem_singleton_self _
  case h_4 keyType valueType entries =>
    obtain ⟨e, _, member⟩ := List.mem_flatMap.mp member
    cases e with
    | entry k w =>
        simp only [entryParts, List.mem_cons, List.not_mem_nil, or_false] at member
        rcases member with rfl | rfl <;> simp [components]
    | _ => simp [entryParts] at member
  case h_5 fields vs | h_6 fields vs => exact (List.of_mem_zip member).1
  case h_7 => simp at member

namespace Registry

def Typed (r : Registry) (h : Heap) (type : Ty) (v : Value) : Prop :=
  ∀ s u, r.Occurs h type v s u → ∀ layout, r.writer s = .ok layout → layout.Shapes h u

/-- The errors of a registry that is incomplete, or that has no order for a
container. -/
inductive Misconfigured (r : Registry) : WalkError → Prop
  | unregistered (type : String) : Misconfigured r (.unregistered type)
  | missingOperation (type : String) (operation : Operation) :
      Misconfigured r (.missingOperation type operation)
  | typeMismatch (expected : String) : Misconfigured r (.typeMismatch expected)
  | guarded {h : Handler} {alternative : String} (operation : Operation) : h ∈ r.handlers →
      h.kind = .guard alternative → Misconfigured r (.nondeterministic h.name alternative operation)

variable {r : Registry} {h : Heap} {type : Ty} {v : Value}

theorem Typed.part (typed : r.Typed h type v) {layout : Layout} {p : Ty × Value}
    (found : r.writer type = .ok layout) (member : p ∈ layout.parts v) : r.Typed h p.1 p.2 :=
  fun s u place => typed s u (.trans (.part .self found member) place)

theorem Typed.content {id : Nat} {cell : Cell} (typed : r.Typed h type (.object id))
    (found : h[id]? = some cell) : r.Typed h cell.type cell.content :=
  fun s u place => typed s u (.trans (.content .self found) place)

/-- Guards name ordered containers by their path, and no path is as short as the
name that plain data gives its maps. -/
theorem Validated.not_misconfigured (validated : r.Validated) (container : String)
    (operation : Operation) :
    ¬ r.Misconfigured (.nondeterministic container "BTreeMap" operation) := by
  have longer : ∀ front rest : String, 8 < front.length → front ++ rest ≠ "BTreeMap" := by
    intro front rest long same
    have lengths := congrArg String.length same
    have eight : "BTreeMap".length = 8 := rfl
    rw [String.length_append] at lengths
    omega
  have map_ne : ∀ key value : Ty, (Ty.map key value).name ≠ "BTreeMap" := by
    intro key value
    change "alloc::collections::btree::map::BTreeMap<" ++ key.name ++ ", " ++ value.name ++ ">" ≠ _
    simp only [String.append_assoc]
    exact longer _ _ (by decide)
  have set_ne : ∀ item : Ty, (Ty.set item).name ≠ "BTreeMap" := by
    intro item
    change "alloc::collections::btree::set::BTreeSet<" ++ item.name ++ ">" ≠ _
    simp only [String.append_assoc]
    exact longer _ _ (by decide)
  intro misconfigured
  cases misconfigured with
  | @guarded h _ _ member kind =>
      cases validated.registrable h member with
      | host other =>
          rw [other] at kind
          cases kind
      | provided provided => exact provided.unguarded _ kind
      | hashMap key value => exact map_ne key value (HandlerKind.guard.inj kind)
      | hashSet item => exact set_ne item (HandlerKind.guard.inj kind)

end Registry

/-! ## Steps -/

variable {r : Registry}

namespace Writing

theorem raw_avoids (bs : Bytes) (w : ByteWriter) : Avoids r.Misconfigured (raw bs w) := .of_ok rfl

theorem length_avoids (n : Nat) (w : ByteWriter) : Avoids r.Misconfigured (length n w) := by
  rw [length, get_bind]
  split
  · exact .throw (by rintro ⟨⟩)
  · exact .of_ok rfl

theorem sized_avoids (bs : Bytes) (w : ByteWriter) : Avoids r.Misconfigured (sized bs w) :=
  .bind (length_avoids _ w) fun _ _ _ => .of_ok rfl

end Writing

namespace Write

variable {c : WriteContext} {deeper : Lower}

theorem emit_avoids {bad : WalkError → Prop} {act : Writing Unit}
    (avoids : ∀ w, Avoids bad (act w)) (s : WriteState) : Avoids bad (emit act s) := by
  have inner := avoids s.out
  unfold emit
  cases run : act s.out with
  | ok u out => trivial
  | error e out => exact inner.not_bad run

theorem reference_avoids (id : Nat) (s : WriteState) : Avoids r.Misconfigured (reference id s) := by
  rw [reference, get_bind]
  cases s.visited.idxOf? id with
  | some number => exact .of_ok rfl
  | none =>
      by_cases full : leBound 4 ≤ s.visited.size
      · simp only [full, ↓reduceIte]
        exact .bind (.throw (by rintro ⟨⟩)) fun _ _ _ => .of_ok rfl
      · simp only [full, ↓reduceIte]
        exact .of_ok rfl

theorem descend_avoids {act : (Ty → Value → Write Unit) → Write Unit} {s : WriteState}
    (avoids : ∀ walk, deeper = some walk → Avoids r.Misconfigured (act walk s)) :
    Avoids r.Misconfigured (descend c deeper act s) := by
  cases deeper with
  | none => exact .throw nofun
  | some walk => exact avoids walk rfl

theorem unborrowed_avoids (id : Nat) (content : Ty) (s : WriteState) :
    Avoids r.Misconfigured (unborrowed c id content s) := by
  rw [unborrowed]
  split
  · exact .throw nofun
  · exact .pure _

/-! ## References -/

variable {id : Nat} {cell : Cell}

theorem shared_avoids (found : c.heap[id]? = some cell)
    (walks : ∀ walk, deeper = some walk →
      ∀ s, Avoids r.Misconfigured (walk cell.type cell.content s)) (s : WriteState) :
    Avoids r.Misconfigured (shared c deeper cell.type id s) := by
  rw [shared, found]
  simp only [↓reduceIte]
  refine .bind (reference_avoids id s) fun fresh t _ => ?_
  split
  · refine .bind (unborrowed_avoids id _ t) fun _ u _ => ?_
    exact descend_avoids fun walk level => walks walk level u
  · exact .pure _

theorem anyShared_avoids (found : c.heap[id]? = some cell)
    (walks : ∀ walk, deeper = some walk → cell.type ∈ c.registry.tags →
      ∀ s, Avoids r.Misconfigured (walk cell.type cell.content s)) (s : WriteState) :
    Avoids r.Misconfigured (anyShared c deeper id s) := by
  rw [anyShared, found]
  simp only []
  cases tagged : c.registry.tag? cell.type with
  | none => exact .throw (by rintro ⟨⟩)
  | some tag =>
      have listed : cell.type ∈ c.registry.tags :=
        List.isSome_idxOf?.mp (Option.isSome_iff_exists.mpr ⟨tag, tagged⟩)
      refine .bind (reference_avoids id s) fun fresh t _ => ?_
      split
      · refine .bind (emit_avoids (Writing.raw_avoids _) t) fun _ u _ => ?_
        refine descend_avoids fun walk level => ?_
        exact .bind (unborrowed_avoids id _ u) fun _ m _ => walks walk level listed m
      · exact .pure _

theorem asset_avoids (content : Ty) (handle : AssetHandle) (s : WriteState) :
    Avoids r.Misconfigured (asset c content handle s) := by
  rw [asset]
  cases c.assets with
  | none => exact .throw nofun
  | some resolver =>
      simp only []
      cases resolver.pathOf handle with
      | none => exact .throw nofun
      | some path => exact emit_avoids (Writing.sized_avoids _) s

theorem packed_avoids (validated : r.Validated) (type : Ty) (format : Plain.PackedFormat)
    (d : Plain.Datum) (s : WriteState) : Avoids r.Misconfigured (packed type format d s) := by
  rw [packed]
  cases Plain.checkOrder d with
  | error e =>
      cases e with
      | unordered => exact .throw (validated.not_misconfigured _ _)
      | refused reason => exact .throw nofun
  | ok u =>
      simp only []
      cases format.encode d with
      | error reason => exact .throw nofun
      | ok bs => exact emit_avoids (Writing.sized_avoids bs) s

/-! ## Values -/

theorem each_avoids {ps : List (Ty × Value)}
    (all : ∀ p ∈ ps, ∀ s, Avoids r.Misconfigured (value c deeper p.1 p.2 s)) (s : WriteState) :
    Avoids r.Misconfigured (each c deeper ps s) := by
  induction ps generalizing s with
  | nil => exact .pure _
  | cons p rest ih =>
      exact .bind (all p List.mem_cons_self s)
        fun _ t _ => ih (fun q member => all q (List.mem_cons_of_mem _ member)) t

theorem value_of_bare {type : Ty} {layout : Layout}
    (found : c.registry.writer type = .ok layout) (bare : layout = .nothing ∨ layout = .counter)
    (v : Value) : value c deeper type v = whole c deeper type layout v := by
  rcases bare with rfl | rfl <;> cases v <;> rw [value, found] <;> first | rfl | simp

section Layouts

variable {type : Ty} {vs : List Value}

theorem counted_avoids {ps : List (Ty × Value)} (count : Nat)
    (all : ∀ p ∈ ps, ∀ s, Avoids r.Misconfigured (value c deeper p.1 p.2 s)) (s : WriteState) :
    Avoids r.Misconfigured ((do emit (Writing.length count); each c deeper ps) s) :=
  .bind (emit_avoids (Writing.length_avoids count) s) fun _ t _ => each_avoids all t

theorem seq_avoids {item : Ty} (written : c.registry.writer type = .ok (.seq item))
    (parts : ∀ p ∈ (Layout.seq item).parts (.list vs), ∀ s,
      Avoids r.Misconfigured (value c deeper p.1 p.2 s)) (s : WriteState) :
    Avoids r.Misconfigured (value c deeper type (.list vs) s) := by
  rw [value_seq written]
  exact counted_avoids _ parts s

theorem set_avoids {item : Ty} {order : KeyOrder}
    (written : c.registry.writer type = .ok (.set item order))
    (parts : ∀ p ∈ (Layout.set item order).parts (.list vs), ∀ s,
      Avoids r.Misconfigured (value c deeper p.1 p.2 s)) (s : WriteState) :
    Avoids r.Misconfigured (value c deeper type (.list vs) s) := by
  rw [value_set written]
  exact counted_avoids _ parts s

theorem map_avoids {keyType valueType : Ty} {order : KeyOrder}
    (written : c.registry.writer type = .ok (.map keyType valueType order))
    (shaped : ∀ e ∈ vs, e.IsEntry)
    (parts : ∀ p ∈ (Layout.map keyType valueType order).parts (.list vs), ∀ s,
      Avoids r.Misconfigured (value c deeper p.1 p.2 s)) (s : WriteState) :
    Avoids r.Misconfigured (value c deeper type (.list vs) s) := by
  rw [value_map written shaped]
  exact counted_avoids _ parts s

theorem present_avoids {item : Ty} {v : Value}
    (written : c.registry.writer type = .ok (.option item))
    (inner : ∀ s, Avoids r.Misconfigured (value c deeper item v s)) (s : WriteState) :
    Avoids r.Misconfigured (value c deeper type (.present v) s) := by
  rw [value_present written]
  exact .bind (emit_avoids (Writing.raw_avoids _) s) fun _ t _ => inner t

theorem record_avoids {fields : List Ty} (written : c.registry.writer type = .ok (.record fields))
    (full : fields.length = vs.length)
    (parts : ∀ p ∈ (Layout.record fields).parts (.list vs), ∀ s,
      Avoids r.Misconfigured (value c deeper p.1 p.2 s)) (s : WriteState) :
    Avoids r.Misconfigured (value c deeper type (.list vs) s) := by
  rw [value_record written full]
  exact each_avoids parts s

theorem nested_avoids {fields : List Ty} {n : Nat}
    (written : c.registry.writer type = .ok (.nested fields)) (full : fields.length = vs.length)
    (parts : ∀ m < n, ∀ p ∈ (Layout.nested fields).parts (.list vs), ∀ s,
      Avoids r.Misconfigured (value c (lower c m) p.1 p.2 s)) (s : WriteState) :
    Avoids r.Misconfigured (value c (lower c n) type (.list vs) s) := by
  rw [value_nested written]
  refine descend_avoids fun walk level => ?_
  cases n with
  | zero => cases level
  | succ n =>
      cases level
      rw [eachField_eq full]
      exact each_avoids (parts n (Nat.lt_succ_self n)) s

theorem leaf_avoids (validated : r.Validated) {layout : Layout} {v : Value}
    (written : c.registry.writer type = .ok layout) (shaped : layout.Shapes c.heap v)
    (bare : layout.IsLeaf) (admitted : ¬ layout.IsRefused) (s : WriteState) :
    Avoids r.Misconfigured (value c deeper type v s) := by
  have atomic : Atomic v → Avoids r.Misconfigured (whole c deeper type layout v s) →
      Avoids r.Misconfigured (value c deeper type v s) := by
    intro simple avoids
    rw [value_of_atomic simple written]
    exact avoids
  cases shaped with
  | nothing v =>
      rw [value_of_bare written (.inl rfl)]
      exact .pure _
  | counter v =>
      rw [value_of_bare written (.inr rfl)]
      exact .of_ok rfl
  | bool b => exact atomic trivial (emit_avoids (Writing.raw_avoids _) s)
  | scalar k m => exact atomic trivial (emit_avoids (Writing.raw_avoids _) s)
  | lowOctet m => exact atomic trivial (emit_avoids (Writing.raw_avoids _) s)
  | text text => exact atomic trivial (emit_avoids (Writing.sized_avoids _) s)
  | octets bs => exact atomic trivial (emit_avoids (Writing.sized_avoids _) s)
  | packed format d => exact atomic trivial (packed_avoids validated type format d s)
  | asset target handle => exact atomic trivial (asset_avoids target handle s)
  | refused container alternative v => exact absurd trivial admitted
  | _ => exact bare.elim

end Layouts

theorem value_avoids {c : WriteContext} (validated : c.registry.Validated) (n : Nat) (type : Ty)
    (v : Value) (demanded : c.registry.Demanded type) (typed : c.registry.Typed c.heap type v)
    (s : WriteState) : Avoids c.registry.Misconfigured (value c (lower c n) type v s) := by
  obtain ⟨layout, written, admitted, components⟩ := validated.writes demanded
  have parts : ∀ p ∈ layout.parts v, ∀ s,
      Avoids c.registry.Misconfigured (value c (lower c n) p.1 p.2 s) := by
    intro p member s
    have smaller := Layout.sizeOf_of_mem_parts member
    exact value_avoids validated n p.1 p.2 (components _ (Layout.mem_components_of_part member))
      (typed.part written member) s
  have deeper : ∀ m < n, ∀ p ∈ layout.parts v, ∀ s,
      Avoids c.registry.Misconfigured (value c (lower c m) p.1 p.2 s) := by
    intro m less p member s
    exact value_avoids validated m p.1 p.2 (components _ (Layout.mem_components_of_part member))
      (typed.part written member) s
  have content : ∀ {id cell}, v = .object id → c.heap[id]? = some cell →
      c.registry.Demanded cell.type → ∀ walk, lower c n = some walk →
      ∀ s, Avoids c.registry.Misconfigured (walk cell.type cell.content s) := by
    rintro id cell rfl found inner walk level s
    cases n with
    | zero => cases level
    | succ n =>
        cases level
        rw [valueAt_eq]
        exact value_avoids validated n _ _ inner (typed.content found) s
  have shaped := typed type v .self layout written
  cases shaped with
  | seq item vs => exact seq_avoids written parts s
  | set item order vs => exact set_avoids written parts s
  | map keyType valueType order entries => exact map_avoids written entries parts s
  | absent item =>
      rw [value_of_atomic (v := .absent) trivial written]
      exact emit_avoids (Writing.raw_avoids _) s
  | present item v =>
      exact present_avoids written (parts (item, v) (List.mem_singleton_self _)) s
  | record full => exact record_avoids written full parts s
  | nested full => exact nested_avoids written full deeper s
  | empty =>
      rw [value_of_atomic (v := .nothing) trivial written]
      exact .throw nofun
  | @shared id cell found =>
      rw [value_of_atomic (v := .object id) trivial written]
      exact shared_avoids found
        (content rfl found (components _ (List.mem_singleton_self _))) s
  | @anyShared id cell found =>
      rw [value_of_atomic (v := .object id) trivial written]
      exact anyShared_avoids found
        (fun walk level listed => content rfl found ⟨true, .content listed⟩ walk level) s
  | _ => exact leaf_avoids validated written (typed type _ .self _ written) trivial admitted s
termination_by (n, sizeOf v)

end Write

end Chronicle
