import Chronicle.Proofs.Registry.Fed

/-!
# Stable names

Two handlers of a built registry have the same stable name only if one of them is
that of a reference, which has no say when names are compared.  The registered types
go by distinct names, in dependencies as well as in the list of names, exactly if no
other handler took the name of a reference.
-/

namespace Chronicle.Builder

variable {b : Builder} {r : Registry} {h : Handler}

theorem stableName_of_mem (keyed : b.Keyed) (member : h ∈ b.handlers) :
    b.stableName h.type = h.name := by
  rw [stableName, (find?_eq_some_iff keyed).mpr ⟨member, rfl⟩]

theorem typeNames_perm (r : Registry) : r.typeNames.Perm (r.handlers.map (·.name)) :=
  List.mergeSort_perm _ _

theorem WellFormed.pairwise_names (wellFormed : b.WellFormed) :
    b.handlers.Pairwise fun h h' => h.name = h'.name → h.kind = .shared ∨ h'.kind = .shared := by
  refine (List.pairwise_filter.mp wellFormed.names).imp fun apart same => ?_
  by_contra other
  obtain ⟨first, second⟩ := not_or.mp other
  exact apart (by simpa using first) (by simpa using second) same

/-- No handler but the reference's own has the name of a reference. -/
def ReferencesApart (b : Builder) : Prop :=
  ∀ content ∈ b.contents, ∀ h ∈ b.handlers,
    h.name = (Ty.shared content).name → h = Handler.shared content

theorem Reached.nodup_names_iff (reached : b.Reached) (wellFormed : b.WellFormed) :
    (b.handlers.map (·.name)).Nodup ↔ b.ReferencesApart := by
  constructor
  · intro distinct content listed h member same
    exact List.inj_on_of_nodup_map distinct member
      (reached.mem_handlers_of_content content listed) same
  · intro apart
    have distinct : b.handlers.Pairwise fun h h' => h.type ≠ h'.type :=
      List.pairwise_map.mp reached.keyed
    have alone : ∀ h ∈ b.handlers, ∀ h' ∈ b.handlers,
        h.kind = .shared → h.name = h'.name → h = h' := by
      intro h member h' member' kind same
      obtain ⟨content, listed, rfl⟩ := reached.coherent.listed h member kind
      exact (apart content listed h' member' same.symm).symm
    rw [List.Nodup, List.pairwise_map]
    refine (wellFormed.pairwise_names.and distinct).imp_of_mem fun member member' both same => ?_
    obtain ⟨names, types⟩ := both
    rcases names same with kind | kind
    · exact types (congrArg Handler.type (alone _ member _ member' kind same))
    · exact types (congrArg Handler.type (alone _ member' _ member kind same.symm)).symm

theorem Keyed.nodup_names_iff (keyed : b.Keyed) : (b.handlers.map (·.name)).Nodup ↔
    ∀ h ∈ b.handlers, ∀ h' ∈ b.handlers, b.stableName h.type = b.stableName h'.type → h = h' := by
  constructor
  · intro distinct h member h' member' same
    rw [stableName_of_mem keyed member, stableName_of_mem keyed member'] at same
    exact List.inj_on_of_nodup_map distinct member member' same
  · intro apart
    refine keyed.of_map.map_on fun h member h' member' same => ?_
    rw [← stableName_of_mem keyed member, ← stableName_of_mem keyed member'] at same
    exact apart h member h' member' same

/-- Equal stable names in a built registry involve a reference.  The names are
distinct, and the name of a dependency stands for one handler only, exactly if no
handler took the name of a reference. -/
theorem stable_names_apart (reached : b.Reached) (built : b.build = .ok r) :
    (r.handlers.Pairwise fun h h' => h.name = h'.name → h.kind = .shared ∨ h'.kind = .shared) ∧
    (r.typeNames.Nodup ↔ ∀ content ∈ b.contents, ∀ h ∈ r.handlers,
      h.name = (Ty.shared content).name → h = Handler.shared content) ∧
    (r.typeNames.Nodup ↔ ∀ h ∈ r.handlers, ∀ h' ∈ r.handlers,
      b.stableName h.type = b.stableName h'.type → h = h') := by
  have wellFormed := Validation.validate_iff_wellFormed.mp (validate_of_build built).1
  rw [(typeNames_perm r).nodup_iff, (build_eq_ok built).1]
  exact ⟨wellFormed.pairwise_names, reached.nodup_names_iff wellFormed,
    reached.keyed.nodup_names_iff⟩

theorem stable_names_apart_renamed : (renamed "path").Reached ∧
    ∃ r, (renamed "path").build = .ok r ∧ r.typeNames.Nodup := by
  have reached := renamed_reached "path"
  obtain ⟨r, built⟩ : ∃ r, (renamed "path").build = .ok r :=
    ⟨_, (renamed_complete "path").build_eq_ok⟩
  have apart : ∀ content ∈ (renamed "path").contents, ∀ h ∈ r.handlers,
      h.name = (Ty.shared content).name → h = Handler.shared content := by
    rw [(build_eq_ok built).1]
    refine List.forall_mem_singleton.mpr (List.forall_mem_cons.mpr
      ⟨fun same => ?_, List.forall_mem_singleton.mpr fun _ => rfl⟩)
    exact absurd same (by decide)
  exact ⟨reached, r, built, (stable_names_apart reached built).2.1.mpr apart⟩

/-! ## A name taken from a reference -/

def impostor : Handler :=
  { Handler.plain (.named "Point") .unit .nothing with name := (Ty.shared (.scalar .u8)).name }

def holder (held : Ty) : Handler :=
  { Handler.plain (.named "Holder") .unit (.record [held]) with
    dependencies := [Handler.inPlace held] }

def disguised (held : Ty) : Builder where
  handlers := [.scalar .u8, .shared (.scalar .u8), impostor, holder held]
  contents := [.scalar .u8]

theorem disguised_reached (held : Ty) : (disguised held).Reached := by
  have first : register (.scalar .u8) {} = .ok () { handlers := [.scalar .u8] } := rfl
  have second : registerShared (.scalar .u8) { handlers := [.scalar .u8] } =
      .ok () { handlers := [.scalar .u8, .shared (.scalar .u8)], contents := [.scalar .u8] } := rfl
  have third : register impostor
      { handlers := [.scalar .u8, .shared (.scalar .u8)], contents := [.scalar .u8] } = .ok ()
        { handlers := [.scalar .u8, .shared (.scalar .u8), impostor],
          contents := [.scalar .u8] } := rfl
  have fourth : register (holder held)
      { handlers := [.scalar .u8, .shared (.scalar .u8), impostor], contents := [.scalar .u8] } =
        .ok () (disguised held) := rfl
  exact .step (.step (.step (.step .empty (.handler rfl) (.inl first)) (.shared _) (.inl second))
    (.handler rfl) (.inl third)) (.handler rfl) (.inl fourth)

theorem disguised_complete (held : Ty) (known : (disguised held).offers held = true) :
    (disguised held).Complete where
  distinct := by
    change (["u8", impostor.name, "Holder"] : List String).Nodup
    decide
  handler := by
    have byte : (disguised held).offers (.scalar .u8) = true := rfl
    refine List.forall_mem_cons.mpr ⟨fun _ => by simp [Handler.scalar, Handler.plain],
      List.forall_mem_cons.mpr ⟨fun _ => List.forall_mem_singleton.mpr byte,
        List.forall_mem_cons.mpr ⟨fun _ => by simp [impostor, Handler.plain],
          List.forall_mem_singleton.mpr fun _ => List.forall_mem_singleton.mpr known⟩⟩⟩
  root := by simp [disguised]
  content := List.forall_mem_singleton.mpr rfl

/-- A registry in which a host's type goes by the name of a reference, and which does
not tell by its fingerprint which of the two another type holds. -/
theorem reference_name_taken :
    (disguised (.shared (.scalar .u8))).Reached ∧ (disguised (.named "Point")).Reached ∧
    ∃ r r', (disguised (.shared (.scalar .u8))).build = .ok r ∧
      (disguised (.named "Point")).build = .ok r' ∧ ¬ r.typeNames.Nodup ∧
        r.fingerprint = r'.fingerprint := by
  have fed : (disguised (.shared (.scalar .u8))).fed = (disguised (.named "Point")).fed := rfl
  have built := (disguised_complete (.shared (.scalar .u8)) rfl).build_eq_ok
  have built' := (disguised_complete (.named "Point") rfl).build_eq_ok
  refine ⟨disguised_reached _, disguised_reached _, _, _, built, built', fun distinct => ?_, ?_⟩
  · have apart := (typeNames_perm _).nodup_iff.mp distinct
    change ["u8", impostor.name, impostor.name, "Holder"].Nodup at apart
    simp at apart
  · rw [fed]

end Chronicle.Builder
