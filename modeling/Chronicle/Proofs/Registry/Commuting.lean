import Chronicle.Proofs.Registry.Built

/-!
# Registrations in any order

A registration that succeeds adds at most a handler of its own, a guard unless
there is one already, and a content.  Whether it succeeds depends only on what
the types it is about stand for, so two registrations that succeed one after the
other also succeed the other way round and leave the same entries.  Entries are
compared without regard to their order.
-/

namespace Chronicle

open Success

namespace Builder

variable {b b' c m : Builder} {h : Handler} {type : Ty}

/-! ## Entries without their order -/

def Keyed (b : Builder) : Prop := (b.handlers.map (·.type)).Nodup

/-- The same entries in whatever order, and the same roots. -/
structure Shuffles (b c : Builder) : Prop where
  handlers : b.handlers.Perm c.handlers
  contents : b.contents.Perm c.contents
  roots : b.roots = c.roots

theorem Shuffles.refl (b : Builder) : Shuffles b b := ⟨.refl _, .refl _, rfl⟩

theorem Shuffles.symm (shuffles : Shuffles b c) : Shuffles c b :=
  ⟨shuffles.handlers.symm, shuffles.contents.symm, shuffles.roots.symm⟩

theorem Shuffles.trans (first : Shuffles b c) (second : Shuffles c m) : Shuffles b m :=
  ⟨first.handlers.trans second.handlers, first.contents.trans second.contents,
    first.roots.trans second.roots⟩

theorem Shuffles.keyed (shuffles : Shuffles b c) (keyed : b.Keyed) : c.Keyed :=
  (shuffles.handlers.map _).nodup_iff.mp keyed

theorem find?_eq_some_iff (keyed : b.Keyed) :
    b.find? type = some h ↔ h ∈ b.handlers ∧ h.type = type := by
  constructor
  · intro found
    exact ⟨List.mem_of_find?_eq_some found, by simpa using List.find?_some found⟩
  · rintro ⟨member, rfl⟩
    cases found : b.find? h.type with
    | none =>
        have absent := List.find?_eq_none.mp found h member
        simp at absent
    | some h' =>
        have same : h'.type = h.type := by simpa using List.find?_some found
        rw [List.inj_on_of_nodup_map keyed (List.mem_of_find?_eq_some found) member same]

theorem find?_eq_none_iff : b.find? type = none ↔ ∀ h ∈ b.handlers, h.type ≠ type := by
  simp [find?, List.find?_eq_none]

theorem Keyed.add (keyed : b.Keyed) (absent : b.contains h.type = false) :
    Keyed { b with handlers := b.handlers ++ [h] } := by
  have free : b.find? h.type = none := by simpa [contains] using absent
  rw [Keyed, List.map_append, List.nodup_append]
  refine ⟨keyed, List.nodup_singleton _, ?_⟩
  intro type old type' new same
  obtain ⟨h', member, rfl⟩ := List.mem_map.mp old
  rw [List.map_singleton, List.mem_singleton] at new
  exact find?_eq_none_iff.mp free h' member (same.trans new)

theorem Reached.keyed (reached : b.Reached) : b.Keyed := by
  refine reached.handler_induction (P := Keyed) List.nodup_nil ?basics
    (fun _ _ absent keyed => keyed.add absent)
    (fun {b content} absent keyed => keyed.add (h := .shared content) absent) ?root
  case basics =>
    unfold Keyed
    decide
  case root =>
    intro b type keyed
    unfold declareRoot
    split <;> exact keyed

theorem Shuffles.find?_eq (shuffles : Shuffles b c) (keyed : b.Keyed) (type : Ty) :
    b.find? type = c.find? type := by
  apply Option.ext
  intro h
  rw [find?_eq_some_iff keyed, find?_eq_some_iff (shuffles.keyed keyed),
    shuffles.handlers.mem_iff]

/-! ## What a registration adds -/

structure Occupied (b : Builder) (container : Ty) (existing : Handler) : Prop where
  found : b.find? container = some existing
  unguarded : ∀ alternative, existing.kind ≠ .guard alternative

structure Addition where
  own : Option Handler := none
  guard : Option Handler := none
  content : Option Ty := none

inductive Guarding : Handler → Prop
  | hashMap (key value : Ty) : Guarding (.guard (.hashMap key value) (.map key value))
  | hashSet (item : Ty) : Guarding (.guard (.hashSet item) (.set item))

theorem Guarding.eq {g g' : Handler} (guarding : Guarding g) (guarding' : Guarding g')
    (same : g.type = g'.type) : g = g' := by
  cases guarding with
  | hashMap key value =>
      cases guarding' with
      | hashMap key' value' =>
          obtain ⟨rfl, rfl⟩ := Ty.hashMap.inj same
          rfl
      | hashSet item' => cases same
  | hashSet item =>
      cases guarding' with
      | hashMap key' value' => cases same
      | hashSet item' =>
          obtain rfl := Ty.hashSet.inj same
          rfl

namespace Addition

variable {a a' : Addition}

structure Proper (a : Addition) : Prop where
  own : ∀ h ∈ a.own, ∀ alternative, h.kind ≠ .guard alternative
  guard : ∀ g ∈ a.guard, Guarding g
  apart : ∀ h ∈ a.own, ∀ g ∈ a.guard, h.type ≠ g.type

structure Fits (a : Addition) (b : Builder) : Prop where
  own : ∀ h ∈ a.own, b.find? h.type = none
  guard : ∀ g ∈ a.guard, ∀ h, b.find? g.type = some h → ∃ alternative, h.kind = .guard alternative

def added (a : Addition) (b : Builder) : List Handler :=
  a.own.toList ++ (a.guard.filter fun g => !b.contains g.type).toList

def apply (a : Addition) (b : Builder) : Builder :=
  { b with handlers := b.handlers ++ a.added b, contents := b.contents ++ a.content.toList }

def Describes (a : Addition) (act : Registering Unit) : Prop :=
  ∀ b b', act b = .ok () b' ↔ a.Fits b ∧ b' = a.apply b

theorem mem_added : h ∈ a.added b ↔ h ∈ a.own ∨ h ∈ a.guard ∧ b.find? h.type = none := by
  simp [added, contains, Option.filter_eq_some_iff]

theorem mem_handlers_apply : h ∈ (a.apply b).handlers ↔
    h ∈ b.handlers ∨ h ∈ a.own ∨ h ∈ a.guard ∧ b.find? h.type = none := by
  rw [apply, List.mem_append, mem_added]

theorem find?_apply (a : Addition) (b : Builder) (type : Ty) :
    (a.apply b).find? type = (b.find? type).or ((a.added b).find? (·.type = type)) :=
  List.find?_append

theorem find?_apply_of_some (found : b.find? type = some h) :
    (a.apply b).find? type = some h := by
  rw [find?_apply, found, Option.some_or]

theorem find?_eq_none_of_apply (absent : (a.apply b).find? type = none) :
    b.find? type = none := by
  rw [find?_apply, Option.or_eq_none_iff] at absent
  exact absent.1

theorem of_find?_apply (found : (a.apply b).find? type = some h) :
    b.find? type = some h ∨ b.find? type = none ∧ h.type = type ∧ (h ∈ a.own ∨ h ∈ a.guard) := by
  rw [find?_apply] at found
  cases before : b.find? type with
  | some h' =>
      rw [before, Option.some_or] at found
      exact .inl found
  | none =>
      rw [before, Option.none_or] at found
      have same : h.type = type := by simpa using List.find?_some found
      have new := mem_added.mp (List.mem_of_find?_eq_some found)
      exact .inr ⟨rfl, same, new.imp id And.left⟩

theorem find?_own (member : h ∈ a.own) : (a.apply b).find? h.type ≠ none := by
  rw [ne_eq, find?_eq_none_iff]
  exact fun absent => absent h (mem_handlers_apply.mpr (.inr (.inl member))) rfl

theorem find?_guard (member : h ∈ a.guard) : (a.apply b).find? h.type ≠ none := by
  intro absent
  have before := find?_eq_none_of_apply absent
  rw [find?_eq_none_iff] at absent
  exact absent h (mem_handlers_apply.mpr (.inr (.inr ⟨member, before⟩))) rfl

theorem keyed_apply (proper : a.Proper) (fits : a.Fits b) (keyed : b.Keyed) :
    (a.apply b).Keyed := by
  have once : ((a.added b).map (·.type)).Nodup := by
    rcases a with ⟨own, guard, content⟩
    cases own with
    | none =>
        cases guard with
        | none => simp [added]
        | some g =>
            by_cases present : b.contains g.type = true <;> simp [added, present, Option.filter]
    | some h =>
        cases guard with
        | none => simp [added]
        | some g =>
            have apart := proper.apart h rfl g rfl
            by_cases present : b.contains g.type = true <;>
              simp [added, present, apart, Option.filter]
  rw [Keyed, apply, List.map_append, List.nodup_append]
  refine ⟨keyed, once, ?_⟩
  intro type old type' new same
  subst same
  obtain ⟨h, member, rfl⟩ := List.mem_map.mp old
  obtain ⟨h', member', same⟩ := List.mem_map.mp new
  have absent : b.find? h'.type = none := by
    rcases mem_added.mp member' with own | ⟨-, absent⟩
    · exact fits.own h' own
    · exact absent
  exact find?_eq_none_iff.mp absent h member same.symm

theorem Fits.before (fits' : a'.Fits (a.apply b)) : a'.Fits b where
  own := fun h member => find?_eq_none_of_apply (fits'.own h member)
  guard := fun g member h found => fits'.guard g member h (find?_apply_of_some found)

theorem Fits.behind (proper : a.Proper) (proper' : a'.Proper) (fits : a.Fits b)
    (fits' : a'.Fits (a.apply b)) : a.Fits (a'.apply b) where
  own := by
    intro h member
    cases found : (a'.apply b).find? h.type with
    | none => rfl
    | some h' =>
        rcases of_find?_apply found with old | ⟨-, same, own | guard⟩
        · rw [fits.own h member] at old
          cases old
        · have taken := fits'.own h' own
          rw [same] at taken
          exact absurd taken (find?_own member)
        · obtain ⟨h'', found'⟩ := Option.ne_none_iff_exists'.mp (find?_own (b := b) member)
          obtain ⟨alternative, kind⟩ := fits'.guard h' guard h'' (by rw [same]; exact found')
          rcases of_find?_apply found' with old | ⟨-, same', own' | guard'⟩
          · rw [fits.own h member] at old
            cases old
          · exact absurd kind (proper.own h'' own' alternative)
          · exact absurd same'.symm (proper.apart h member h'' guard')
  guard := by
    intro g member h found
    rcases of_find?_apply found with old | ⟨-, same, own | guard⟩
    · exact fits.guard g member h old
    · have free := fits'.own h own
      rw [same] at free
      exact absurd free (find?_guard member)
    · cases proper'.guard h guard <;> exact ⟨_, rfl⟩

theorem mem_handlers_apply_apply (proper : a.Proper) (proper' : a'.Proper)
    (fits' : a'.Fits (a.apply b)) : h ∈ (a'.apply (a.apply b)).handlers ↔
      h ∈ b.handlers ∨ (h ∈ a.own ∨ h ∈ a'.own) ∨
        (h ∈ a.guard ∨ h ∈ a'.guard) ∧ b.find? h.type = none := by
  rw [mem_handlers_apply, mem_handlers_apply]
  constructor
  · rintro ((old | own | ⟨guard, absent⟩) | own' | ⟨guard', absent'⟩)
    · exact .inl old
    · exact .inr (.inl (.inl own))
    · exact .inr (.inr ⟨.inl guard, absent⟩)
    · exact .inr (.inl (.inr own'))
    · exact .inr (.inr ⟨.inr guard', find?_eq_none_of_apply absent'⟩)
  · rintro (old | (own | own') | ⟨guard | guard', absent⟩)
    · exact .inl (.inl old)
    · exact .inl (.inr (.inl own))
    · exact .inr (.inl own')
    · exact .inl (.inr (.inr ⟨guard, absent⟩))
    · cases found : (a.apply b).find? h.type with
      | none => exact .inr (.inr ⟨guard', rfl⟩)
      | some g =>
          rcases of_find?_apply found with old | ⟨-, same, own | guard⟩
          · rw [absent] at old
            cases old
          · obtain ⟨alternative, kind⟩ := fits'.guard h guard' g found
            exact absurd kind (proper.own g own alternative)
          · obtain rfl := (proper.guard g guard).eq (proper'.guard h guard') same
            exact .inl (.inr (.inr ⟨guard, absent⟩))

theorem apply_comm (proper : a.Proper) (proper' : a'.Proper) (keyed : b.Keyed)
    (fits : a.Fits b) (fits' : a'.Fits (a.apply b)) :
    Shuffles (a'.apply (a.apply b)) (a.apply (a'.apply b)) where
  handlers := by
    have behind := fits.behind proper proper' fits'
    have left := keyed_apply proper' fits' (keyed_apply proper fits keyed)
    have right := keyed_apply proper behind (keyed_apply proper' fits'.before keyed)
    refine (List.perm_ext_iff_of_nodup left.of_map right.of_map).mpr fun h => ?_
    rw [mem_handlers_apply_apply proper proper' fits',
      mem_handlers_apply_apply proper' proper behind, or_comm (a := h ∈ a.own),
      or_comm (a := h ∈ a.guard)]
  contents := by
    simp only [apply, List.append_assoc]
    exact List.perm_append_comm.append_left _
  roots := rfl

theorem Fits.shuffle (keyed : b.Keyed) (shuffles : Shuffles b c) (fits : a.Fits b) : a.Fits c where
  own := fun h member => by rw [← shuffles.find?_eq keyed, fits.own h member]
  guard := fun g member h found => fits.guard g member h (by rw [shuffles.find?_eq keyed, found])

theorem apply_shuffle (keyed : b.Keyed) (shuffles : Shuffles b c) (a : Addition) :
    Shuffles (a.apply b) (a.apply c) where
  handlers := by
    have same : a.added b = a.added c := by
      simp only [added, contains, shuffles.find?_eq keyed]
    simpa only [apply, same] using shuffles.handlers.append_right _
  contents := shuffles.contents.append_right _
  roots := shuffles.roots

/-! ## What each registration adds -/

/-- What becomes of an action that is to make an addition.  It adds its own handler
before it looks at the container to be guarded. -/
inductive Outcome (a : Addition) (b : Builder) :
    EStateM.Result RegistryError Builder Unit → Prop
  | made : a.Fits b → Outcome a b (.ok () (a.apply b))
  | taken {h : Handler} : a.own = some h → b.contains h.type = true →
      Outcome a b (.error (.duplicate h.name) b)
  | refused {container alternative : Ty} {existing : Handler} {b' : Builder} :
      a.guard = some (.guard container alternative) → (∀ h ∈ a.own, b.contains h.type = false) →
        b.Occupied container existing → b' = { b with handlers := b.handlers ++ a.own.toList } →
          Outcome a b (.error (.nondeterministic container.name existing.name alternative.name) b')

theorem describes_of_outcome {act : Registering Unit} (outcome : ∀ b, a.Outcome b (act b)) :
    a.Describes act := by
  intro b b'
  have outcome := outcome b
  constructor
  · intro run
    rw [run] at outcome
    cases outcome with
    | made fits => exact ⟨fits, rfl⟩
  · rintro ⟨fits, rfl⟩
    generalize act b = result at outcome
    cases outcome with
    | made => rfl
    | taken own present => simp [contains, fits.own _ own] at present
    | refused guard _ occupied =>
        obtain ⟨alternative, kind⟩ := fits.guard _ guard _ occupied.found
        exact absurd kind (occupied.unguarded alternative)

theorem outcome_own {act : Registering Unit} {content : Option Ty}
    (acts : ∀ b : Builder, act b =
      if b.contains h.type then .error (.duplicate h.name) b
      else .ok () { b with
        handlers := b.handlers ++ [h]
        contents := b.contents ++ content.toList }) (b : Builder) :
    Outcome { own := some h, content } b (act b) := by
  rw [acts]
  split
  · next present => exact .taken rfl present
  · next absent =>
      have free : b.find? h.type = none := by simpa [contains] using absent
      have added : apply { own := some h, content } b = { b with
          handlers := b.handlers ++ [h]
          contents := b.contents ++ content.toList } := by
        simp [apply, added]
      rw [← added]
      exact .made ⟨by simpa using free, by simp⟩

theorem outcome_register (h : Handler) (b : Builder) :
    Outcome { own := some h } b (register h b) :=
  outcome_own (fun b => by simp [register_eq]) b

theorem outcome_shared (content : Ty) (b : Builder) :
    Outcome { own := some (.shared content), content := some content } b
      (registerShared content b) :=
  outcome_own (registerShared_eq content) b

theorem outcome_guard (container alternative : Ty) (b : Builder) :
    Outcome { guard := some (.guard container alternative) } b
      (guardContainer container alternative b) := by
  rw [guardContainer_eq]
  cases found : b.find? container with
  | none =>
      have absent : b.contains (Handler.guard container alternative).type = false := by
        simp [contains, Handler.guard, found]
      have added : apply { guard := some (.guard container alternative) } b =
          { b with handlers := b.handlers ++ [.guard container alternative] } := by
        simp [apply, Addition.added, Option.filter, absent]
      rw [register_eq, if_neg (by simp [absent]), ← added]
      refine .made ⟨by simp, ?_⟩
      rintro g ⟨⟩ h taken
      rw [show b.find? (Handler.guard container alternative).type = none from found] at taken
      cases taken
  | some existing =>
      have present : b.contains (Handler.guard container alternative).type = true := by
        simp [contains, Handler.guard, found]
      dsimp only
      split
      · next alternative' guarded =>
          have unchanged : apply { guard := some (.guard container alternative) } b = b := by
            simp [apply, added, Option.filter, present]
          have fits : Fits { guard := some (.guard container alternative) } b := by
            refine ⟨by simp, ?_⟩
            rintro g ⟨⟩ h found'
            obtain rfl := Option.some.inj (found.symm.trans found')
            exact ⟨alternative', guarded⟩
          have made := Outcome.made fits
          rwa [unchanged] at made
      · next unguarded => exact .refused rfl (by simp) ⟨found, unguarded⟩ (by simp)

theorem outcome_ordered {container : Ty} (alternative : Ty) (apart : h.type ≠ container)
    (b : Builder) : Outcome { own := some h, guard := some (.guard container alternative) } b
      ((register h >>= fun _ => guardContainer container alternative) b) := by
  by_cases present : b.contains h.type = true
  · rw [bind_of_error (by rw [register_eq, if_pos present])]
    exact .taken rfl present
  · rw [bind_of_ok (by rw [register_eq, if_neg present])]
    have free : ∀ h' ∈ some h, b.contains h'.type = false := by
      rintro _ ⟨⟩
      exact Bool.eq_false_iff.mpr present
    have same := find?_append_of_ne (b := b) apart
    have second := outcome_guard container alternative { b with handlers := b.handlers ++ [h] }
    generalize guardContainer container alternative { b with handlers := b.handlers ++ [h] } =
      result at second ⊢
    cases second with
    | made fits =>
        have both : apply { guard := some (.guard container alternative) }
            { b with handlers := b.handlers ++ [h] } =
              apply { own := some h, guard := some (.guard container alternative) } b := by
          simp [apply, added, contains, Option.filter_some, Handler.guard, same]
        rw [both]
        refine .made ⟨fun h' own => ?_, fun g guard h' found => ?_⟩
        · simpa [contains] using free h' own
        · refine fits.guard g guard h' ?_
          obtain rfl := Option.some.inj guard
          exact same.trans found
    | taken own => cases own
    | @refused container' alternative' existing _ guard _ occupied left =>
        obtain rfl : container = container' := congrArg Handler.type (Option.some.inj guard)
        exact .refused guard free ⟨same.symm.trans occupied.found, occupied.unguarded⟩
          (by simpa using left)

theorem proper_ordered {h g : Handler} (kind : h.kind = .value) (guarding : Guarding g)
    (apart : h.type ≠ g.type) : Proper { own := some h, guard := some g } where
  own := by
    rintro _ ⟨⟩ alternative
    simp [kind]
  guard := by
    rintro _ ⟨⟩
    exact guarding
  apart := by
    rintro _ ⟨⟩ _ ⟨⟩
    exact apart

theorem proper_guard {g : Handler} (guarding : Guarding g) : Proper { guard := some g } where
  own := by simp
  guard := by
    rintro _ ⟨⟩
    exact guarding
  apart := by simp

theorem proper_own {h : Handler} (content : Option Ty)
    (other : ∀ alternative, h.kind ≠ .guard alternative) : Proper { own := some h, content } where
  own := by
    rintro _ ⟨⟩
    exact other
  guard := by simp
  apart := by simp

end Addition

theorem Registration.exists_addition {act : Registering Unit} (registration : Registration act) :
    ∃ a : Addition, a.Proper ∧ a.Describes act := by
  have plain : ∀ h : Handler, (∀ alternative, h.kind ≠ .guard alternative) →
      ∃ a : Addition, a.Proper ∧ a.Describes (register h) := fun h other =>
    ⟨_, Addition.proper_own none other,
      Addition.describes_of_outcome (Addition.outcome_register h)⟩
  cases registration with
  | @handler h kind => exact plain h (by simp [kind])
  | seq item => exact plain (.seq item) nofun
  | option item => exact plain (.option item) nofun
  | packed type blank format => exact plain (.packed type blank format) nofun
  | asset content => exact plain (.asset content) nofun
  | map key value order =>
      have apart : (Handler.map key value order).type ≠ Ty.hashMap key value := nofun
      exact ⟨_, Addition.proper_ordered rfl (.hashMap key value) apart,
        Addition.describes_of_outcome (Addition.outcome_ordered (.map key value) apart)⟩
  | set item order =>
      have apart : (Handler.set item order).type ≠ Ty.hashSet item := nofun
      exact ⟨_, Addition.proper_ordered rfl (.hashSet item) apart,
        Addition.describes_of_outcome (Addition.outcome_ordered (.set item) apart)⟩
  | hashMap key value =>
      exact ⟨_, Addition.proper_guard (.hashMap key value),
        Addition.describes_of_outcome (Addition.outcome_guard _ _)⟩
  | hashSet item =>
      exact ⟨_, Addition.proper_guard (.hashSet item),
        Addition.describes_of_outcome (Addition.outcome_guard _ _)⟩
  | shared content =>
      exact ⟨_, Addition.proper_own (h := .shared content) _ nofun,
        Addition.describes_of_outcome (Addition.outcome_shared content)⟩

/-! ## Registrations in a row -/

theorem forM_cons_eq_ok {act : Registering Unit} {acts : List (Registering Unit)} :
    (act :: acts).forM id b = .ok () b' ↔ ∃ m, act b = .ok () m ∧ acts.forM id m = .ok () b' := by
  change (act >>= fun _ => acts.forM id) b = _ ↔ _
  rw [bind_eq_ok]
  exact ⟨fun ⟨_, m, run⟩ => ⟨m, run⟩, fun ⟨m, run⟩ => ⟨(), m, run⟩⟩

theorem Registration.keyed {act : Registering Unit} (registration : Registration act)
    (keyed : b.Keyed) (run : act b = .ok () b') : b'.Keyed := by
  obtain ⟨a, proper, describes⟩ := registration.exists_addition
  obtain ⟨fits, rfl⟩ := (describes b b').mp run
  exact Addition.keyed_apply proper fits keyed

theorem forM_keyed {acts : List (Registering Unit)}
    (registrations : ∀ act ∈ acts, Registration act) (keyed : b.Keyed)
    (run : acts.forM id b = .ok () b') : b'.Keyed := by
  induction acts generalizing b with
  | nil =>
      cases run
      exact keyed
  | cons act acts ih =>
      obtain ⟨head, registrations⟩ := List.forall_mem_cons.mp registrations
      obtain ⟨m, first, rest⟩ := forM_cons_eq_ok.mp run
      exact ih registrations (head.keyed keyed first) rest

theorem Registration.shuffle {act : Registering Unit} (registration : Registration act)
    (keyed : b.Keyed) (shuffles : Shuffles b c) (run : act b = .ok () b') :
    ∃ c', act c = .ok () c' ∧ Shuffles b' c' := by
  obtain ⟨a, -, describes⟩ := registration.exists_addition
  obtain ⟨fits, rfl⟩ := (describes b b').mp run
  exact ⟨a.apply c, (describes c _).mpr ⟨fits.shuffle keyed shuffles, rfl⟩,
    Addition.apply_shuffle keyed shuffles a⟩

theorem forM_shuffle {acts : List (Registering Unit)}
    (registrations : ∀ act ∈ acts, Registration act) (keyed : b.Keyed)
    (shuffles : Shuffles b c) (run : acts.forM id b = .ok () b') :
    ∃ c', acts.forM id c = .ok () c' ∧ Shuffles b' c' := by
  induction acts generalizing b c with
  | nil =>
      cases run
      exact ⟨c, rfl, shuffles⟩
  | cons act acts ih =>
      obtain ⟨head, registrations⟩ := List.forall_mem_cons.mp registrations
      obtain ⟨m, first, rest⟩ := forM_cons_eq_ok.mp run
      obtain ⟨m', first', shuffles'⟩ := head.shuffle keyed shuffles first
      obtain ⟨c', rest', shuffles''⟩ := ih registrations (head.keyed keyed first) shuffles' rest
      exact ⟨c', forM_cons_eq_ok.mpr ⟨m', first', rest'⟩, shuffles''⟩

theorem Registration.comm {act act' : Registering Unit} (registration : Registration act)
    (registration' : Registration act') (keyed : b.Keyed) (first : act b = .ok () m)
    (second : act' m = .ok () b') :
    ∃ m' b'', act' b = .ok () m' ∧ act m' = .ok () b'' ∧ Shuffles b' b'' := by
  obtain ⟨a, proper, describes⟩ := registration.exists_addition
  obtain ⟨a', proper', describes'⟩ := registration'.exists_addition
  obtain ⟨fits, rfl⟩ := (describes b m).mp first
  obtain ⟨fits', rfl⟩ := (describes' _ b').mp second
  exact ⟨a'.apply b, a.apply (a'.apply b), (describes' b _).mpr ⟨fits'.before, rfl⟩,
    (describes _ _).mpr ⟨fits.behind proper proper' fits', rfl⟩,
    Addition.apply_comm proper proper' keyed fits fits'⟩

theorem forM_perm {acts acts' : List (Registering Unit)} (permuted : acts.Perm acts')
    (registrations : ∀ act ∈ acts, Registration act) (keyed : b.Keyed)
    (run : acts.forM id b = .ok () b') :
    ∃ b'', acts'.forM id b = .ok () b'' ∧ Shuffles b' b'' := by
  induction permuted generalizing b b' with
  | nil => exact ⟨b', run, .refl b'⟩
  | cons act _ ih =>
      obtain ⟨head, registrations⟩ := List.forall_mem_cons.mp registrations
      obtain ⟨m, first, rest⟩ := forM_cons_eq_ok.mp run
      obtain ⟨b'', rest', shuffles⟩ := ih registrations (head.keyed keyed first) rest
      exact ⟨b'', forM_cons_eq_ok.mpr ⟨m, first, rest'⟩, shuffles⟩
  | swap act' act acts =>
      obtain ⟨head, registrations⟩ := List.forall_mem_cons.mp registrations
      obtain ⟨next, registrations⟩ := List.forall_mem_cons.mp registrations
      obtain ⟨m, first, run⟩ := forM_cons_eq_ok.mp run
      obtain ⟨m', second, rest⟩ := forM_cons_eq_ok.mp run
      obtain ⟨n, n', second', first', shuffles⟩ := head.comm next keyed first second
      obtain ⟨b'', rest', shuffles'⟩ :=
        forM_shuffle registrations (next.keyed (head.keyed keyed first) second) shuffles rest
      exact ⟨b'', forM_cons_eq_ok.mpr ⟨n, second', forM_cons_eq_ok.mpr ⟨n', first', rest'⟩⟩,
        shuffles'⟩
  | trans one _ ih ih' =>
      obtain ⟨m, run', shuffles⟩ := ih registrations keyed run
      obtain ⟨b'', run'', shuffles'⟩ :=
        ih' (fun act member => registrations act (one.mem_iff.mpr member)) keyed run'
      exact ⟨b'', run'', shuffles.trans shuffles'⟩

end Builder

end Chronicle
