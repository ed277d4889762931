import Chronicle.Proofs.Registry.Search
import Chronicle.Proofs.Walk.Grammar
import Chronicle.Proofs.Walk.Accepting

/-!
# Handlers that keep to their declarations

A handler is honest if it walks only types it declared, makes fresh values only
of types it declared as created, and has blank values of the shape that its own
reader walks.  The handlers of the basic types, of containers and of references
are honest.  A built registry of honest handlers is validated: whatever it may
be asked for has an honest handler with the operations that are needed.
-/

namespace Chronicle

open Success

namespace Layout

def fields? : Layout → Option (List Ty)
  | .record fields | .nested fields => some fields
  | _ => none

def created (layout : Layout) : List Ty :=
  match layout.fields? with
  | some _ => []
  | none => layout.components

def IsRefused : Layout → Prop
  | .refused _ _ => True
  | _ => False

end Layout

/-! ## Blank values -/

namespace Registry

mutual

/-- Values with fields wherever their type is read field by field.  Nothing is said
of types without a reader. -/
inductive Fits (r : Registry) : Ty → Value → Prop
  | fields {type : Ty} {layout : Layout} {fields : List Ty} {vs : List Value} :
      r.reader type = .ok layout → layout.fields? = some fields → FitsAll r fields vs →
      Fits r type (.list vs)
  | whole {type : Ty} (v : Value) :
      (∀ layout, r.reader type = .ok layout → layout.fields? = none) → Fits r type v

inductive FitsAll (r : Registry) : List Ty → List Value → Prop
  | nil : FitsAll r [] []
  | cons {type : Ty} {types : List Ty} {v : Value} {rest : List Value} :
      Fits r type v → FitsAll r types rest → FitsAll r (type :: types) (v :: rest)

end

theorem Fits.of_reader {r : Registry} {type : Ty} {layout : Layout}
    (found : r.reader type = .ok layout) (plain : layout.fields? = none) (v : Value) :
    r.Fits type v := by
  refine .whole v fun other same => ?_
  obtain rfl := Except.ok.inj (found.symm.trans same)
  exact plain

theorem Fits.fieldsAll {r : Registry} {type : Ty} {layout : Layout} {types : List Ty} {v : Value}
    (fits : r.Fits type v) (found : r.reader type = .ok layout)
    (inner : layout.fields? = some types) : ∃ vs, v = .list vs ∧ r.FitsAll types vs := by
  cases fits with
  | fields other inner' all =>
      obtain rfl := Except.ok.inj (other.symm.trans found)
      obtain rfl := Option.some.inj (inner'.symm.trans inner)
      exact ⟨_, rfl, all⟩
  | whole _ plain =>
      rw [plain layout found] at inner
      cases inner

def Makable (r : Registry) (type : Ty) : Prop :=
  ∀ h : Heap, ∃ blank h', r.makeBlank type h = .ok blank h' ∧ r.Fits type blank

end Registry

/-! ## Honest handlers -/

namespace Handler

structure Honest (r : Registry) (h : Handler) : Prop where
  writes : ∀ layout, h.writer = some layout → ¬ layout.IsRefused ∧
    ∀ type ∈ layout.components, ∃ d ∈ h.dependencies, d.type = type
  reads : ∀ layout, h.reader = some layout → ¬ layout.IsRefused ∧
    (∀ type ∈ layout.components, ∃ d ∈ h.dependencies, d.type = type) ∧
    ∀ type ∈ layout.created, creates type ∈ h.dependencies
  template : ∀ t, h.initializer = some (.template t) →
    ∀ heap, r.Fits h.type (t.make heap).1
  placeholder : h.initializer = some .placeholder → ∃ content, h.type = .shared content ∧
    creates content ∈ h.dependencies ∧ ∀ id, r.Fits h.type (.object id)
  makes : ∀ container alternative, h.initializer ≠ some (.refused container alternative)

variable {r : Registry} {h : Handler} {layout : Layout}

/-- A handler that writes and reads by one layout, walks no fields and declares
what it walks as created. -/
theorem Honest.of_layout (found : r.find? h.type = some h) (writes : h.writer = some layout)
    (reads : h.reader = some layout) (whole : layout.fields? = none) (admitted : ¬ layout.IsRefused)
    (declared : ∀ type ∈ layout.components, creates type ∈ h.dependencies)
    (makes : (∃ t, h.initializer = some (.template t)) ∨
      h.initializer = some .placeholder ∧ ∃ content, h.type = .shared content ∧
        creates content ∈ h.dependencies) : h.Honest r := by
  have fits : ∀ v, r.Fits h.type v :=
    fun v => .of_reader (Registry.reader_of_find? found reads) whole v
  have walked : ∀ type ∈ layout.components, ∃ d ∈ h.dependencies, d.type = type :=
    fun type member => ⟨creates type, declared type member, rfl⟩
  constructor
  case writes =>
    intro other same
    obtain rfl := Option.some.inj (writes.symm.trans same)
    exact ⟨admitted, walked⟩
  case reads =>
    intro other same
    obtain rfl := Option.some.inj (reads.symm.trans same)
    simp only [Layout.created, whole]
    exact ⟨admitted, walked, declared⟩
  case template => exact fun t _ heap => fits _
  case placeholder =>
    intro placed
    rcases makes with ⟨t, made⟩ | ⟨_, content, type_eq, created⟩
    · simp [made] at placed
    · exact ⟨content, type_eq, created, fun id => fits _⟩
  case makes =>
    intro container alternative
    rcases makes with ⟨t, made⟩ | ⟨made, _⟩ <;> simp [made]

/-- A handler that writes and reads by one layout with fields, and whose blank
value has each of them. -/
theorem Honest.of_fields {fields : List Ty} {t : Template} (found : r.find? h.type = some h)
    (writes : h.writer = some layout) (reads : h.reader = some layout)
    (inner : layout.fields? = some fields)
    (declared : ∀ type ∈ layout.components, ∃ d ∈ h.dependencies, d.type = type)
    (makes : h.initializer = some (.template t))
    (blank : ∀ heap, ∃ vs, (t.make heap).1 = .list vs ∧ r.FitsAll fields vs) : h.Honest r := by
  have admitted : ¬ layout.IsRefused := by
    cases layout <;> simp [Layout.fields?, Layout.IsRefused] at inner ⊢
  constructor
  case writes =>
    intro other same
    obtain rfl := Option.some.inj (writes.symm.trans same)
    exact ⟨admitted, declared⟩
  case reads =>
    intro other same
    obtain rfl := Option.some.inj (reads.symm.trans same)
    simp only [Layout.created, inner]
    exact ⟨admitted, declared, by simp⟩
  case template =>
    intro other same heap
    obtain ⟨rfl⟩ := Option.some.inj (makes.symm.trans same)
    obtain ⟨vs, made, fits⟩ := blank heap
    rw [made]
    exact .fields (Registry.reader_of_find? found reads) inner fits
  case placeholder => simp [makes]
  case makes => simp [makes]

theorem honest_basic (found : r.find? h.type = some h) (basic : h ∈ Builder.basicHandlers) :
    h.Honest r := by
  simp only [Builder.basicHandlers, List.mem_append, List.mem_map, List.mem_cons, List.not_mem_nil,
    or_false] at basic
  rcases basic with (rfl | ⟨k, _, rfl⟩) | rfl | rfl | rfl | rfl | rfl <;>
    exact .of_layout found rfl rfl rfl id (by simp [Layout.components]) (.inl ⟨_, rfl⟩)

theorem Provided.honest (provided : h.Provided) (found : r.find? h.type = some h) :
    h.Honest r := by
  cases provided with
  | basic member => exact honest_basic found member
  | seq item | option item | set item order =>
      exact .of_layout found rfl rfl rfl id
        (by simp [Layout.components, Handler.seq, Handler.option, Handler.set]) (.inl ⟨_, rfl⟩)
  | map key value order =>
      exact .of_layout found rfl rfl rfl id (by simp [Layout.components, Handler.map])
        (.inl ⟨_, rfl⟩)
  | packed type blank format =>
      exact .of_layout found rfl rfl rfl id (by simp [Layout.components]) (.inl ⟨_, rfl⟩)
  | asset content =>
      exact .of_layout found rfl rfl rfl id (by simp [Layout.components]) (.inl ⟨_, rfl⟩)
  | shared content =>
      exact .of_layout found rfl rfl rfl id (by simp [Layout.components, Handler.shared])
        (.inr ⟨rfl, content, rfl, by simp [Handler.shared]⟩)

theorem Provided.unguarded (provided : h.Provided) (alternative : String) :
    h.kind ≠ .guard alternative := by
  intro guarded
  cases provided with
  | basic member =>
      have kinds : Builder.basicHandlers.all
          (fun h => decide (h.kind = .value ∨ h.kind = .polymorphic)) = true := rfl
      have kind := List.all_eq_true.mp kinds h member
      simp [guarded] at kind
  | _ => cases guarded

end Handler

/-! ## Validated registries -/

namespace Registry

/-- Whatever the registry may be asked for has an honest handler that meets the
demand, and its handlers are those that registrations can add. -/
structure Validated (r : Registry) : Prop where
  served : ∀ {d : Dependency}, r.Demands d → ∃ h, r.find? d.type = some h ∧ h.Meets d ∧ h.Honest r
  registrable : ∀ h ∈ r.handlers, h.Registrable

theorem validated_of_build {b : Builder} {r : Registry} (reached : b.Reached)
    (built : b.build = .ok r)
    (honest : ∀ type h, r.find? type = some h → h.kind = .value → h.Honest r) : r.Validated := by
  have registrable : ∀ h ∈ r.handlers, h.Registrable := by
    rw [(Builder.build_eq_ok built).1]
    exact reached.registrable
  refine ⟨fun {d} demanded => ?_, registrable⟩
  obtain ⟨h, found, meets⟩ := Builder.meets_of_demands built demanded
  refine ⟨h, found, meets, ?_⟩
  have same : h.type = d.type := by simpa using List.find?_some found
  have own : r.find? h.type = some h := by rw [same, found]
  cases registrable h (List.mem_of_find?_eq_some found) with
  | host kind => exact honest _ _ found kind
  | provided provided => exact provided.honest own
  | hashMap key value => exact absurd rfl (meets.unguarded _)
  | hashSet item => exact absurd rfl (meets.unguarded _)

def Demanded (r : Registry) (type : Ty) : Prop := ∃ needs, r.Demands ⟨type, needs⟩

namespace Validated

variable {r : Registry} {type : Ty}

theorem writes (validated : r.Validated) (demanded : r.Demanded type) :
    ∃ layout, r.writer type = .ok layout ∧ ¬ layout.IsRefused ∧
      ∀ s ∈ layout.components, r.Demanded s := by
  obtain ⟨needs, demands⟩ := demanded
  obtain ⟨h, found, meets, honest⟩ := validated.served demands
  obtain ⟨layout, writes⟩ := meets.writes
  obtain ⟨admitted, declared⟩ := honest.writes layout writes
  refine ⟨layout, writer_of_find? found writes, admitted, fun s member => ?_⟩
  obtain ⟨d, listed, rfl⟩ := declared s member
  exact ⟨d.needsInitializer, demands.declared found listed⟩

theorem makable (validated : r.Validated) {type : Ty} (demands : r.Demands ⟨type, true⟩) :
    r.Makable type := by
  intro heap
  obtain ⟨h, found, meets, honest⟩ := validated.served demands
  obtain ⟨i, made⟩ := meets.makes rfl
  have initializer_eq : r.initializer type = .ok i := initializer_of_find? found made
  have same : h.type = type := by simpa using List.find?_some found
  cases i with
  | template t =>
      refine ⟨(t.make heap).1, (t.make heap).2, ?_, same ▸ honest.template t made heap⟩
      rw [makeBlank.eq_def, initializer_eq]
      rfl
  | placeholder =>
      obtain ⟨content, shared, created, fits⟩ := honest.placeholder made
      have shape : type = .shared content := same.symm.trans shared
      have smaller : sizeOf content < sizeOf type := by simp [shape]
      obtain ⟨blank, heap', inner, _⟩ := makable validated (demands.declared found created) heap
      refine ⟨.object heap'.size, heap'.push ⟨content, blank⟩, ?_, same ▸ fits _⟩
      rw [shape] at initializer_eq ⊢
      rw [makeBlank, initializer_eq]
      exact bind_eq_ok.mpr ⟨_, _, rfl, bind_eq_ok.mpr ⟨blank, heap', inner, rfl⟩⟩
  | refused container alternative => exact absurd made (honest.makes _ _)
termination_by sizeOf type

theorem reads (validated : r.Validated) (demanded : r.Demanded type) :
    ∃ layout, r.reader type = .ok layout ∧ ¬ layout.IsRefused ∧
      (∀ s ∈ layout.components, r.Demanded s) ∧ ∀ s ∈ layout.created, r.Makable s := by
  obtain ⟨needs, demands⟩ := demanded
  obtain ⟨h, found, meets, honest⟩ := validated.served demands
  obtain ⟨layout, reads⟩ := meets.reads
  obtain ⟨admitted, declared, created⟩ := honest.reads layout reads
  refine ⟨layout, reader_of_find? found reads, admitted, fun s member => ?_, fun s member => ?_⟩
  · obtain ⟨d, listed, rfl⟩ := declared s member
    exact ⟨d.needsInitializer, demands.declared found listed⟩
  · exact validated.makable (demands.declared found (created s member))

theorem demanded_of_leads (validated : r.Validated) (demanded : r.Demanded type) {s : Ty}
    (leads : r.Leads type s) : r.Demanded s := by
  induction leads with
  | self => exact demanded
  | component _ found member ih =>
      obtain ⟨layout, reader_eq, _, components, _⟩ := validated.reads ih
      obtain rfl := Except.ok.inj (reader_eq.symm.trans found)
      exact components _ member
  | tagged _ _ listed => exact ⟨true, .content listed⟩

end Validated

end Registry

end Chronicle
