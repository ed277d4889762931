import Chronicle.Proofs.Registry.Built

/-!
# What validation has seen

A search that ends well has met every demand it was given and has entered every
handler on the way once.  A handler met again is only asked whether it can make
fresh values, so that is checked for each demand, and writing and reading are
checked where the handler is entered.  Whatever the declarations of a built
registry lead to from its roots and contents has therefore been checked.
-/

namespace Chronicle

open Success

namespace Validation

/-- A handler that can be demanded: it is no guard, and it makes fresh values
where they are needed. -/
structure Suits (h : Handler) (d : Dependency) : Prop where
  unguarded : ∀ alternative, h.kind ≠ .guard alternative
  makes : d.needsInitializer = true → ∃ i, h.initializer = some i

variable {b : Builder} {h : Handler} {fresh entered : List Ty}

theorem objection?_eq_none {d : Demand} : objection? h d = none ↔ Suits h d.dependency := by
  unfold objection?
  split
  · next alternative guarded =>
      exact ⟨nofun, fun suits => absurd guarded (suits.unguarded alternative)⟩
  · next unguarded =>
      have missing : (d.dependency.needsInitializer && h.initializer.isNone) = false ↔
          Suits h d.dependency := by
        rw [Bool.and_eq_false_imp, Option.isNone_eq_false_iff, Option.isSome_iff_exists]
        exact ⟨fun makes => ⟨unguarded, makes⟩, Suits.makes⟩
      rw [← missing]
      simp [Option.isSome_iff_ne_none]

theorem entryObjection?_eq_none {d : Demand} : entryObjection? h d = none ↔
    (∃ layout, h.writer = some layout) ∧ ∃ layout, h.reader = some layout := by
  unfold entryObjection?
  cases h.writer <;> cases h.reader <;> simp

/-- A demand that was looked at: its handler suits it and is among those entered
if it could still be entered. -/
structure Covered (b : Builder) (fresh entered : List Ty) (d : Dependency) : Prop where
  suited : ∃ h, b.find? d.type = some h ∧ Suits h d
  entered : d.type ∈ fresh → d.type ∈ entered

structure Explored (b : Builder) (fresh entered : List Ty) (type : Ty) (h : Handler) : Prop where
  found : b.find? type = some h
  writes : ∃ layout, h.writer = some layout
  reads : ∃ layout, h.reader = some layout
  covered : ∀ d ∈ h.dependencies, Covered b fresh entered d

theorem Covered.enter {type : Ty} {d : Dependency}
    (covered : Covered b (fresh.erase type) entered d) :
    Covered b fresh (type :: entered) d where
  suited := covered.suited
  entered := by
    intro pending
    by_cases same : d.type = type
    · simp [same]
    · exact List.mem_cons_of_mem _ (covered.entered ((List.mem_erase_of_ne same).mpr pending))

theorem Explored.enter {type other : Ty}
    (explored : Explored b (fresh.erase type) entered other h) :
    Explored b fresh (type :: entered) other h where
  found := explored.found
  writes := explored.writes
  reads := explored.reads
  covered := fun d member => (explored.covered d member).enter

/-- A search that ends well covers all its demands, and with them those of every
handler it entered. -/
theorem search_covers (b : Builder) (fresh : List Ty) (pending : List Demand)
    (ended : search b fresh pending = .ok ()) :
    ∃ entered, (∀ d ∈ pending, Covered b fresh entered d.dependency) ∧
      ∀ type ∈ entered, ∃ h, Explored b fresh entered type h := by
  fun_induction search b fresh pending with
  | case1 => exact ⟨[], by simp, by simp⟩
  | case2 fresh d rest missing => cases ended
  | case3 fresh d rest h found e objection => cases ended
  | case4 fresh d rest h found none_found member e objection => cases ended
  | case5 fresh d rest h found none_found member none_entered ih =>
      obtain ⟨entered, covered, explored⟩ := ih ended
      have others : ∀ d' ∈ rest, Covered b fresh (d.dependency.type :: entered) d'.dependency :=
        fun d' later => (covered d' (List.mem_append_right _ later)).enter
      have own : ∀ d' ∈ h.dependencies, Covered b fresh (d.dependency.type :: entered) d' := by
        intro d' declared
        have demanded : (⟨d', h.name⟩ : Demand) ∈ demands h :=
          List.mem_reverse.mpr (List.mem_map_of_mem declared)
        exact (covered _ (List.mem_append_left _ demanded)).enter
      refine ⟨d.dependency.type :: entered, List.forall_mem_cons.mpr ⟨?_, others⟩,
        List.forall_mem_cons.mpr ⟨⟨h, found, ?_, ?_, own⟩, fun type inside => ?_⟩⟩
      · exact ⟨⟨h, found, objection?_eq_none.mp none_found⟩, fun _ => List.mem_cons_self⟩
      · exact (entryObjection?_eq_none.mp none_entered).1
      · exact (entryObjection?_eq_none.mp none_entered).2
      · obtain ⟨h', before⟩ := explored type inside
        exact ⟨h', before.enter⟩
  | case6 fresh d rest h found none_found absent ih =>
      obtain ⟨entered, covered, explored⟩ := ih ended
      refine ⟨entered, List.forall_mem_cons.mpr ⟨?_, covered⟩, explored⟩
      exact ⟨⟨h, found, objection?_eq_none.mp none_found⟩, fun member => absurd member absent⟩

/-! ## Validated builders -/

theorem forM_eq_ok {ε α : Type} {f : α → Except ε Unit} {types : List α} {u : Unit} :
    types.forM f = .ok u ↔ ∀ type ∈ types, f type = .ok () := by
  induction types with
  | nil => exact ⟨fun _ => by simp, fun _ => rfl⟩
  | cons type types ih =>
      change (f type >>= fun _ => types.forM f) = .ok () ↔ _
      rw [except_bind_eq_ok, List.forall_mem_cons, ← ih]
      exact ⟨fun ⟨_, first, rest⟩ => ⟨first, rest⟩, fun ⟨first, rest⟩ => ⟨(), first, rest⟩⟩

theorem validate_eq_ok : validate b = .ok () ↔ checkNames b = .ok () ∧
    (∀ type ∈ b.roots, validateFrom b type "<root>" = .ok ()) ∧
      ∀ type ∈ b.contents, validateFrom b type "AnyShared" = .ok () := by
  have contents : ∀ type, type ∈ sortedContents b ↔ type ∈ b.contents :=
    fun type => List.mem_mergeSort
  change (checkNames b >>= fun _ => b.roots.forM (fun root => validateFrom b root "<root>") >>=
    fun _ => (sortedContents b).forM fun content => validateFrom b content "AnyShared") = .ok () ↔ _
  simp only [except_bind_eq_ok, forM_eq_ok, contents]
  exact ⟨fun ⟨_, names, _, roots, contents⟩ => ⟨names, roots, contents⟩,
    fun ⟨names, roots, contents⟩ => ⟨(), names, (), roots, contents⟩⟩

end Validation

/-! ## What a registry may be asked for -/

/-- The demands that the declarations lead to from the roots and from the
contents of polymorphic references. -/
inductive Registry.Demands (r : Registry) : Dependency → Prop
  | root {type : Ty} : type ∈ r.roots → Demands r ⟨type, true⟩
  | content {type : Ty} : type ∈ r.tags → Demands r ⟨type, true⟩
  | declared {d d' : Dependency} {h : Handler} : Demands r d → r.find? d.type = some h →
      d' ∈ h.dependencies → Demands r d'

inductive Builder.Demanded (b : Builder) : Dependency → Prop
  | root {type : Ty} : type ∈ b.roots → Demanded b ⟨type, true⟩
  | content {type : Ty} : type ∈ b.contents → Demanded b ⟨type, true⟩
  | declared {d d' : Dependency} {h : Handler} : Demanded b d → b.find? d.type = some h →
      d' ∈ h.dependencies → Demanded b d'

structure Handler.Meets (h : Handler) (d : Dependency) : Prop extends Validation.Suits h d where
  writes : ∃ layout, h.writer = some layout
  reads : ∃ layout, h.reader = some layout

namespace Builder

open Validation

variable {b : Builder} {r : Registry}

theorem meets_of_demanded (valid : validate b = .ok ()) {d : Dependency}
    (demanded : b.Demanded d) : ∃ h, b.find? d.type = some h ∧ h.Meets d := by
  obtain ⟨-, roots, contents⟩ := validate_eq_ok.mp valid
  have all_types : ∀ {type h}, b.find? type = some h → type ∈ b.handlers.map (·.type) := by
    intro type h found
    have same : h.type = type := by simpa using List.find?_some found
    exact same ▸ List.mem_map_of_mem (List.mem_of_find?_eq_some found)
  have covered : ∃ entered, Covered b (b.handlers.map (·.type)) entered d ∧
      ∀ type ∈ entered, ∃ h, Explored b (b.handlers.map (·.type)) entered type h := by
    have start : ∀ {type requiredBy}, validateFrom b type requiredBy = .ok () →
        ∃ entered, Covered b (b.handlers.map (·.type)) entered ⟨type, true⟩ ∧
          ∀ type ∈ entered, ∃ h, Explored b (b.handlers.map (·.type)) entered type h := by
      intro type requiredBy ended
      obtain ⟨entered, covered, explored⟩ := search_covers _ _ _ ended
      exact ⟨entered, covered _ List.mem_cons_self, explored⟩
    induction demanded with
    | root listed => exact start (roots _ listed)
    | content listed => exact start (contents _ listed)
    | declared _ found member ih =>
        obtain ⟨entered, covered, explored⟩ := ih
        obtain ⟨h, here⟩ := explored _ (covered.entered (all_types found))
        obtain rfl := Option.some.inj (here.found.symm.trans found)
        exact ⟨entered, here.covered _ member, explored⟩
  obtain ⟨entered, covered, explored⟩ := covered
  obtain ⟨h, found, suits⟩ := covered.suited
  obtain ⟨h', here⟩ := explored _ (covered.entered (all_types found))
  obtain rfl := Option.some.inj (here.found.symm.trans found)
  exact ⟨h', found, suits, here.writes, here.reads⟩

theorem meets_of_demands (built : b.build = .ok r) {d : Dependency} (demanded : r.Demands d) :
    ∃ h, r.find? d.type = some h ∧ h.Meets d := by
  obtain ⟨valid, rfl⟩ := validate_of_build built
  refine meets_of_demanded valid ?_
  induction demanded with
  | root listed => exact .root listed
  | content listed => exact .content (List.mem_mergeSort.mp listed)
  | declared _ found member ih => exact .declared ih found member

end Builder

end Chronicle
