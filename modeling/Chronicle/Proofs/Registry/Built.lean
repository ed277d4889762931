import Chronicle.Proofs.Success
import Mathlib.Data.List.Nodup

/-!
# Built registries

Builders change only through registrations, whether they succeed or fail.  So a
reference handler is always accompanied by the content it makes reachable
through polymorphic references, and no content is listed twice.
-/

namespace Chronicle

open Success

namespace Handler

/-- The handlers of the basic types, and those that registering a container, a
packed type or a reference adds for it. -/
inductive Provided : Handler → Prop
  | basic {h : Handler} : h ∈ Builder.basicHandlers → Provided h
  | seq (item : Ty) : Provided (seq item)
  | option (item : Ty) : Provided (option item)
  | map (key value : Ty) (order : KeyOrder) : Provided (map key value order)
  | set (item : Ty) (order : KeyOrder) : Provided (set item order)
  | packed (type : Ty) (blank : Plain.Datum) (format : Plain.PackedFormat) :
      Provided (packed type blank format)
  | shared (content : Ty) : Provided (shared content)
  | asset (content : Ty) : Provided (asset content)

inductive Registrable : Handler → Prop
  | host {h : Handler} : h.kind = .value → Registrable h
  | provided {h : Handler} : h.Provided → Registrable h
  | hashMap (key value : Ty) : Registrable (guard (.hashMap key value) (.map key value))
  | hashSet (item : Ty) : Registrable (guard (.hashSet item) (.set item))

end Handler

namespace Builder

inductive Registration : Registering Unit → Prop
  | handler {h : Handler} : h.kind = .value → Registration (register h)
  | seq (item : Ty) : Registration (registerSeq item)
  | option (item : Ty) : Registration (registerOption item)
  | map (key value : Ty) (order : KeyOrder) : Registration (registerMap key value order)
  | set (item : Ty) (order : KeyOrder) : Registration (registerSet item order)
  | hashMap (key value : Ty) : Registration (guardHashMap key value)
  | hashSet (item : Ty) : Registration (guardHashSet item)
  | packed (type : Ty) (blank : Plain.Datum) (format : Plain.PackedFormat) :
      Registration (registerPacked type blank format)
  | shared (content : Ty) : Registration (registerShared content)
  | asset (content : Ty) : Registration (registerAsset content)

def Leaves (act : Registering Unit) (b b' : Builder) : Prop :=
  act b = .ok () b' ∨ ∃ e, act b = .error e b'

inductive Reached : Builder → Prop
  | empty : Reached {}
  | basics : Reached withBasics
  | step {b b' : Builder} {act : Registering Unit} : Reached b → Registration act →
      Leaves act b b' → Reached b'
  | root {b : Builder} (type : Ty) : Reached b → Reached (b.declareRoot type)

structure Coherent (b : Builder) : Prop where
  nodup : b.contents.Nodup
  listed : ∀ h ∈ b.handlers, h.kind = .shared → ∃ content ∈ b.contents, h = Handler.shared content
  handled : ∀ content ∈ b.contents, b.contains (.shared content) = true

/-! ## What actions leave -/

theorem register_eq (h : Handler) (b : Builder) :
    register h b = if b.contains h.type then .error (.duplicate h.name) b
      else .ok () { b with handlers := b.handlers ++ [h] } := by
  by_cases present : b.contains h.type = true
  · rw [if_pos present]
    change (if b.contains h.type = true then _ else _ : Registering Unit) b = _
    rw [if_pos present]
    rfl
  · rw [if_neg present]
    change (if b.contains h.type = true then _ else _ : Registering Unit) b = _
    rw [if_neg present]
    rfl

theorem guardContainer_eq (container alternative : Ty) (b : Builder) :
    guardContainer container alternative b =
      match b.find? container with
      | none => register (.guard container alternative) b
      | some existing =>
          match existing.kind with
          | .guard _ => .ok () b
          | _ => .error (.nondeterministic container.name existing.name alternative.name) b := by
  change (match b.find? container with | none => _ | some existing => _ : Registering Unit) b = _
  cases b.find? container with
  | none => rfl
  | some existing =>
      cases kind : existing.kind <;> simp only [kind] <;> rfl

theorem registerShared_eq (content : Ty) (b : Builder) :
    registerShared content b =
      if b.contains (.shared content) then .error (.duplicate (Ty.shared content).name) b
      else .ok () { b with
        handlers := b.handlers ++ [.shared content]
        contents := b.contents ++ [content] } := by
  change EStateM.bind (register (.shared content)) _ b = _
  rw [EStateM.bind, register_eq]
  by_cases present : b.contains (.shared content) = true
  · simp [Handler.shared, present]
  · simp only [Handler.shared, present]
    rfl

variable {b b' : Builder} {h : Handler}

theorem leaves_bind {act act' : Registering Unit}
    (left : Leaves (act >>= fun _ => act') b b') :
    Leaves act b b' ∨ ∃ m, Leaves act b m ∧ Leaves act' m b' := by
  cases first : act b with
  | ok u m =>
      rw [Leaves, bind_of_ok first] at left
      exact .inr ⟨m, .inl first, left⟩
  | error e m =>
      rw [Leaves, bind_of_error first] at left
      rcases left with ⟨⟨⟩⟩ | ⟨e, ⟨⟩⟩
      exact .inl (.inr ⟨_, first⟩)

theorem leaves_register (left : Leaves (register h) b b') :
    b' = b ∨ b.contains h.type = false ∧ b' = { b with handlers := b.handlers ++ [h] } := by
  rw [Leaves, register_eq] at left
  split at left
  · rcases left with ⟨⟨⟩⟩ | ⟨e, ⟨⟩⟩
    exact .inl rfl
  · next absent =>
      rcases left with ⟨⟨⟩⟩ | ⟨e, ⟨⟩⟩
      exact .inr ⟨by simpa using absent, rfl⟩

theorem leaves_guard {container alternative : Ty}
    (left : Leaves (guardContainer container alternative) b b') :
    b' = b ∨ b.contains container = false ∧
      b' = { b with handlers := b.handlers ++ [.guard container alternative] } := by
  rw [Leaves, guardContainer_eq] at left
  split at left
  · exact leaves_register left
  · split at left <;> rcases left with ⟨⟨⟩⟩ | ⟨e, ⟨⟩⟩ <;> exact .inl rfl

theorem leaves_shared {content : Ty} (left : Leaves (registerShared content) b b') :
    b' = b ∨ b.contains (.shared content) = false ∧ b' = { b with
      handlers := b.handlers ++ [.shared content]
      contents := b.contents ++ [content] } := by
  rw [Leaves, registerShared_eq] at left
  split at left
  · rcases left with ⟨⟨⟩⟩ | ⟨e, ⟨⟩⟩
    exact .inl rfl
  · next absent =>
      rcases left with ⟨⟨⟩⟩ | ⟨e, ⟨⟩⟩
      exact .inr ⟨by simpa using absent, rfl⟩

/-! ## One handler after the other -/

/-- Registrations add handlers one at a time: a reference comes with the content
it leads to, any other handler comes alone. -/
theorem Registration.handler_induction {P : Builder → Prop}
    (own : ∀ {b h}, h.Registrable → h.kind ≠ .shared → b.contains h.type = false → P b →
      P { b with handlers := b.handlers ++ [h] })
    (reference : ∀ {b content}, b.contains (.shared content) = false → P b →
      P { b with
        handlers := b.handlers ++ [.shared content]
        contents := b.contents ++ [content] })
    {act : Registering Unit} (registration : Registration act) (left : Leaves act b b')
    (holds : P b) : P b' := by
  have register : ∀ {h : Handler} {b b' : Builder}, h.Registrable → h.kind ≠ .shared → P b →
      Leaves (register h) b b' → P b' := by
    intro h b b' new other holds left
    rcases leaves_register left with rfl | ⟨absent, rfl⟩
    · exact holds
    · exact own new other absent holds
  have guard : ∀ {container alternative : Ty} {b b' : Builder},
      (Handler.guard container alternative).Registrable → P b →
      Leaves (guardContainer container alternative) b b' → P b' := by
    intro container alternative b b' new holds left
    rcases leaves_guard left with rfl | ⟨absent, rfl⟩
    · exact holds
    · exact own new nofun absent holds
  cases registration with
  | handler kind => exact register (.host kind) (by simp [kind]) holds left
  | seq item => exact register (.provided (.seq item)) nofun holds left
  | option item => exact register (.provided (.option item)) nofun holds left
  | packed type blank format =>
      exact register (.provided (.packed type blank format)) nofun holds left
  | asset content => exact register (.provided (.asset content)) nofun holds left
  | hashMap key value => exact guard (.hashMap key value) holds left
  | hashSet item => exact guard (.hashSet item) holds left
  | map key value order =>
      rcases leaves_bind left with left | ⟨m, first, second⟩
      · exact register (.provided (.map key value order)) nofun holds left
      · exact guard (.hashMap key value)
          (register (.provided (.map key value order)) nofun holds first) second
  | set item order =>
      rcases leaves_bind left with left | ⟨m, first, second⟩
      · exact register (.provided (.set item order)) nofun holds left
      · exact guard (.hashSet item)
          (register (.provided (.set item order)) nofun holds first) second
  | shared content =>
      rcases leaves_shared left with rfl | ⟨new, rfl⟩
      · exact holds
      · exact reference new holds

/-- What holds of the two builders to start from, and is kept by each handler
that is added and each root, holds of every builder that registrations lead
to. -/
theorem Reached.handler_induction {P : Builder → Prop} (empty : P {}) (basics : P withBasics)
    (own : ∀ {b h}, h.Registrable → h.kind ≠ .shared → b.contains h.type = false → P b →
      P { b with handlers := b.handlers ++ [h] })
    (reference : ∀ {b content}, b.contains (.shared content) = false → P b →
      P { b with
        handlers := b.handlers ++ [.shared content]
        contents := b.contents ++ [content] })
    (root : ∀ {b} type, P b → P (b.declareRoot type)) (reached : Reached b) : P b := by
  induction reached with
  | empty => exact empty
  | basics => exact basics
  | step _ registration left ih => exact registration.handler_induction own reference left ih
  | root type _ ih => exact root type ih

/-! ## Coherence -/

theorem find?_append_of_ne {type : Ty} (apart : h.type ≠ type) :
    Builder.find? { b with handlers := b.handlers ++ [h] } type = b.find? type := by
  simp [find?, List.find?_append, apart]

theorem contains_append (b : Builder) (h : Handler) (type : Ty) :
    Builder.contains { b with handlers := b.handlers ++ [h] } type =
      (b.contains type || decide (h.type = type)) := by
  by_cases same : h.type = type
  · simp [contains, find?, List.find?_append, same]
  · simp [contains, find?, List.find?_append, same]

theorem Coherent.add (coherent : Coherent b) (other : h.kind ≠ .shared) :
    Coherent { b with handlers := b.handlers ++ [h] } where
  nodup := coherent.nodup
  listed := by
    intro h' member kind
    rcases List.mem_append.mp member with old | new
    · exact coherent.listed h' old kind
    · rw [List.mem_singleton.mp new] at kind
      exact absurd kind other
  handled := by
    intro content member
    rw [contains_append, coherent.handled content member, Bool.true_or]

theorem Coherent.addShared {content : Ty} (coherent : Coherent b)
    (new : b.contains (.shared content) = false) :
    Coherent { b with
      handlers := b.handlers ++ [.shared content]
      contents := b.contents ++ [content] } where
  nodup := by
    have fresh : content ∉ b.contents := fun member => by
      rw [coherent.handled content member] at new
      contradiction
    exact List.nodup_append.mpr ⟨coherent.nodup, List.nodup_singleton content,
      fun s member t single same =>
        fresh (by rw [← List.mem_singleton.mp single, ← same]; exact member)⟩
  listed := by
    intro h' member kind
    rcases List.mem_append.mp member with old | added
    · obtain ⟨content', listed, same⟩ := coherent.listed h' old kind
      exact ⟨content', List.mem_append_left _ listed, same⟩
    · exact ⟨content, List.mem_append_right _ (List.mem_singleton_self _),
        List.mem_singleton.mp added⟩
  handled := by
    intro content' member
    change Builder.contains { b with handlers := b.handlers ++ [.shared content] } _ = true
    rw [contains_append]
    rcases List.mem_append.mp member with old | added
    · rw [coherent.handled content' old, Bool.true_or]
    · rw [List.mem_singleton.mp added]
      simp [Handler.shared]

theorem Reached.coherent (reached : Reached b) : Coherent b := by
  refine reached.handler_induction ?empty ?basics (fun _ other _ coherent => coherent.add other)
    (fun new coherent => coherent.addShared new) ?root
  case empty =>
    exact ⟨List.nodup_nil, fun _ member => (List.not_mem_nil member).elim,
      fun _ member => (List.not_mem_nil member).elim⟩
  case basics =>
    have contents : withBasics.contents = [] := rfl
    have others : basicHandlers.all (fun h => decide (h.kind ≠ .shared)) = true := rfl
    refine ⟨List.nodup_nil, fun h member kind => ?_, fun content member => ?_⟩
    · exact absurd kind (of_decide_eq_true (List.all_eq_true.mp others h member))
    · rw [contents] at member
      exact (List.not_mem_nil member).elim
  case root =>
    intro b type coherent
    unfold declareRoot
    split
    · exact coherent
    · exact ⟨coherent.nodup, coherent.listed, coherent.handled⟩

theorem Reached.registrable (reached : Reached b) : ∀ h ∈ b.handlers, h.Registrable := by
  have add : ∀ {h : Handler} {handlers : List Handler}, h.Registrable →
      (∀ h ∈ handlers, h.Registrable) → ∀ h' ∈ handlers ++ [h], h'.Registrable :=
    fun new old => List.forall_mem_append.mpr ⟨old, by simpa using new⟩
  refine reached.handler_induction (P := fun b => ∀ h ∈ b.handlers, h.Registrable) ?empty ?basics
    (fun new _ _ old => add new old) (fun _ old => add (.provided (.shared _)) old) ?root
  case empty => simp
  case basics => exact fun h member => .provided (.basic member)
  case root =>
    intro b type old
    unfold declareRoot
    split <;> exact old

end Builder

/-! ## Built registries -/

namespace Builder

variable {b : Builder} {r : Registry}

theorem validate_of_build (built : b.build = .ok r) : Validation.validate b = .ok () ∧
    r = { handlers := b.handlers, tags := b.tagOrder, roots := b.roots,
          fingerprint := .ofFed b.fed } := by
  unfold build at built
  cases checked : Validation.validate b with
  | error e =>
      rw [checked] at built
      contradiction
  | ok u =>
      rw [checked] at built
      exact ⟨rfl, (Except.ok.inj built).symm⟩

theorem build_eq_ok (built : b.build = .ok r) : r.handlers = b.handlers ∧ r.tags = b.tagOrder := by
  obtain ⟨_, rfl⟩ := validate_of_build built
  exact ⟨rfl, rfl⟩

theorem Reached.nodup_tags (reached : Reached b) (built : b.build = .ok r) : r.tags.Nodup := by
  rw [(build_eq_ok built).2]
  exact (List.mergeSort_perm _ _).nodup_iff.mpr reached.coherent.nodup

theorem Reached.mem_tags (reached : Reached b) (built : b.build = .ok r) {content : Ty}
    (member : Handler.shared content ∈ r.handlers) : content ∈ r.tags := by
  obtain ⟨handlers, tags⟩ := build_eq_ok built
  rw [handlers] at member
  obtain ⟨content', listed, same⟩ := reached.coherent.listed _ member rfl
  have same_type : Ty.shared content = Ty.shared content' := congrArg Handler.type same
  injection same_type with same_content
  rw [tags, same_content]
  exact List.mem_mergeSort.mpr listed

end Builder

end Chronicle
