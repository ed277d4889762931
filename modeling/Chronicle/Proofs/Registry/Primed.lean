import Chronicle.Proofs.Registry.Honest
import Chronicle.Proofs.Walk.Faithful

/-!
# Handlers that are filled all over

Reading replaces a value, or fills each field that it has, if the handler is one
that registrations provide or one of a record that walks all its fields.  Where
a type leads to such handlers only, fresh values can be filled.
-/

namespace Chronicle

open Success

namespace Handler

variable {r : Registry} {h : Handler}

/-- The handlers that registrations provide, guards, and handlers of records that
make values with each field that they walk. -/
inductive Walks (r : Registry) : Handler → Prop
  | provided {h : Handler} : h.Provided → Walks r h
  | guard (container alternative : Ty) : Walks r (guard container alternative)
  | record {h : Handler} {layout : Layout} {fields : List Ty} : h.reader = some layout →
      layout.fields? = some fields → (∀ i, h.initializer = some i → ∃ t, i = .template t ∧
        ∀ heap, ∃ vs, (t.make heap).1 = .list vs ∧ r.FillableAll fields vs) → Walks r h

theorem Provided.reads (provided : h.Provided) : ∃ layout, h.reader = some layout ∧
    (layout.Replaces ∨ layout = .nothing ∧ h.initializer = some (.template (.value .unit))) := by
  cases provided with
  | basic member =>
      simp only [Builder.basicHandlers, List.mem_append, List.mem_map, List.mem_cons,
        List.not_mem_nil, or_false] at member
      rcases member with (rfl | ⟨k, _, rfl⟩) | rfl | rfl | rfl | rfl | rfl
      case inr.inl => exact ⟨_, rfl, .inr ⟨rfl, rfl⟩⟩
      all_goals exact ⟨_, rfl, .inl trivial⟩
  | _ => exact ⟨_, rfl, .inl trivial⟩

end Handler

namespace Registry

variable {r : Registry} {h : Handler} {type : Ty} {heap heap' : Heap} {blank : Value}

theorem Fillable.of_fields {layout : Layout} {fields : List Ty} {vs : List Value}
    (found : r.reader type = .ok layout) (inner : layout.fields? = some fields)
    (all : r.FillableAll fields vs) : r.Fillable type (.list vs) := by
  cases layout with
  | record types =>
      cases inner
      exact .record found all
  | nested types =>
      cases inner
      exact .nested found all
  | _ => cases inner

theorem handler_of_initializer {i : Initializer} (makes : r.initializer type = .ok i) :
    ∃ h, r.find? type = some h ∧ h.initializer = some i := by
  rw [initializer, resolve] at makes
  cases found : r.find? type with
  | none => simp [found, bind, Except.bind] at makes
  | some h =>
      cases same : h.initializer with
      | none => simp [found, bind, Except.bind, same] at makes
      | some j =>
          have made : r.initializer type = .ok j := initializer_of_find? found same
          rw [initializer, resolve] at made
          exact ⟨h, rfl, same.trans (congrArg some (Except.ok.inj (made.symm.trans makes)))⟩

theorem makeBlank_cases (made : r.makeBlank type heap = .ok blank heap') :
    ∃ h, r.find? type = some h ∧
      ((∃ t, h.initializer = some (.template t) ∧ blank = (t.make heap).1) ∨
        h.initializer = some .placeholder ∧ ∃ id, blank = .object id) := by
  rw [makeBlank.eq_def] at made
  obtain ⟨way, m, first, made⟩ := bind_eq_ok.mp made
  obtain ⟨makes, rfl⟩ := liftResult_eq_ok.mp first
  obtain ⟨h, found, same⟩ := handler_of_initializer makes
  refine ⟨h, found, ?_⟩
  cases way with
  | template t =>
      cases made
      exact .inl ⟨t, same, rfl⟩
  | refused container alternative => exact (throw_eq_ok.mp made).elim
  | placeholder =>
      cases type with
      | shared content =>
          obtain ⟨inner, m, first, finish⟩ := bind_eq_ok.mp made
          cases finish
          exact .inr ⟨same, _, rfl⟩
      | _ => exact (throw_eq_ok.mp made).elim

theorem fillable_of_walks (walks : ∀ h, r.find? type = some h → h.Walks r)
    (made : r.makeBlank type heap = .ok blank heap') : r.Fillable type blank := by
  obtain ⟨h, found, way⟩ := makeBlank_cases made
  cases walks h found with
  | provided provided =>
      obtain ⟨layout, reads, replaces | ⟨rfl, makes⟩⟩ := provided.reads
      · exact .replaced _ (reader_of_find? found reads) replaces
      · rw [makes] at way
        obtain ⟨t, ⟨⟩, rfl⟩ | ⟨⟨⟩, _⟩ := way
        exact .nothing (reader_of_find? found reads)
  | guard container alternative => exact .replaced _ (reader_of_find? found rfl) trivial
  | record reads inner makes =>
      rcases way with ⟨t, same, rfl⟩ | ⟨same, _⟩
      · obtain ⟨_, ⟨rfl⟩, fills⟩ := makes _ same
        obtain ⟨vs, list, all⟩ := fills heap
        rw [list]
        exact .of_fields (reader_of_find? found reads) inner all
      · obtain ⟨_, ⟨⟩, _⟩ := makes _ same

def Primed (r : Registry) (top : Ty) : Prop :=
  ∀ type, r.Leads top type → ∀ heap blank heap', r.makeBlank type heap = .ok blank heap' →
    r.Fillable type blank

theorem primed_of_handlers
    (handlers : ∀ s h, r.Leads type s → r.find? s = some h → h.Walks r) : r.Primed type :=
  fun s leads _ _ _ made => fillable_of_walks (fun h found => handlers s h leads found) made

end Registry

end Chronicle
