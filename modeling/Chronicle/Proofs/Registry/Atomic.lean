import Chronicle.Proofs.Registry.Commuting
import Chronicle.StructuralOrder

/-!
# Registrations that fail

A registration that succeeds keeps all entries and adds its own.  One that fails
leaves the builder as it was, with one exception: an ordered container is
registered before the unordered one is guarded, so it stays behind if the
unordered one has a handler that is no guard.
-/

namespace Chronicle.Builder

variable {b b' : Builder}

inductive Call where
  | handler (h : Handler)
  | seq (item : Ty)
  | option (item : Ty)
  | map (key value : Ty) (order : KeyOrder)
  | set (item : Ty) (order : KeyOrder)
  | hashMap (key value : Ty)
  | hashSet (item : Ty)
  | packed (type : Ty) (blank : Plain.Datum) (format : Plain.PackedFormat)
  | shared (content : Ty)
  | asset (content : Ty)

namespace Call

def act : Call → Registering Unit
  | handler h => register h
  | seq item => registerSeq item
  | option item => registerOption item
  | map key value order => registerMap key value order
  | set item order => registerSet item order
  | hashMap key value => guardHashMap key value
  | hashSet item => guardHashSet item
  | packed type blank format => registerPacked type blank format
  | shared content => registerShared content
  | asset content => registerAsset content

def addition : Call → Addition
  | handler h => { own := some h }
  | seq item => { own := some (.seq item) }
  | option item => { own := some (.option item) }
  | map key value order => {
      own := some (.map key value order)
      guard := some (.guard (.hashMap key value) (.map key value)) }
  | set item order => {
      own := some (.set item order)
      guard := some (.guard (.hashSet item) (.set item)) }
  | hashMap key value => { guard := some (.guard (.hashMap key value) (.map key value)) }
  | hashSet item => { guard := some (.guard (.hashSet item) (.set item)) }
  | packed type blank format => { own := some (.packed type blank format) }
  | shared content => { own := some (.shared content), content := some content }
  | asset content => { own := some (.asset content) }

theorem outcome (call : Call) (b : Builder) : call.addition.Outcome b (call.act b) := by
  cases call with
  | handler h => exact Addition.outcome_register h b
  | seq item => exact Addition.outcome_register _ b
  | option item => exact Addition.outcome_register _ b
  | map key value order =>
      exact Addition.outcome_ordered (h := .map key value order) _ Ty.noConfusion b
  | set item order =>
      exact Addition.outcome_ordered (h := .set item order) _ Ty.noConfusion b
  | hashMap key value => exact Addition.outcome_guard _ _ b
  | hashSet item => exact Addition.outcome_guard _ _ b
  | packed type blank format => exact Addition.outcome_register _ b
  | shared content => exact Addition.outcome_shared content b
  | asset content => exact Addition.outcome_register _ b

/-- How a call that succeeds changes the builder: entries stay, and new ones are its
own. -/
structure Grows (call : Call) (b b' : Builder) : Prop where
  kept : ∀ type h, b.find? type = some h → b'.find? type = some h
  new : ∀ type h, b'.find? type = some h → b.find? type = some h ∨
    h.type = type ∧ (h ∈ call.addition.own ∨ h ∈ call.addition.guard)
  contents : b'.contents = b.contents ++ call.addition.content.toList
  roots : b'.roots = b.roots

/-- How a call that fails changes the builder: an ordered container stays behind
without a guard for the unordered one. -/
inductive Torn (b : Builder) : Call → Builder → Prop
  | map {key value : Ty} {order : KeyOrder} {existing : Handler} :
      b.contains (.map key value) = false → b.Occupied (.hashMap key value) existing →
        Torn b (map key value order)
          { b with handlers := b.handlers ++ [.map key value order] }
  | set {item : Ty} {order : KeyOrder} {existing : Handler} :
      b.contains (.set item) = false → b.Occupied (.hashSet item) existing →
        Torn b (set item order) { b with handlers := b.handlers ++ [.set item order] }

theorem grows (call : Call) (run : call.act b = .ok () b') : call.Grows b b' := by
  have outcome := call.outcome b
  rw [run] at outcome
  cases outcome with
  | made fits =>
      exact {
        kept := fun type h found => Addition.find?_apply_of_some found
        new := fun type h found =>
          (Addition.of_find?_apply found).imp id fun ⟨_, same, own⟩ => ⟨same, own⟩
        contents := rfl
        roots := rfl }

theorem torn_of_error (call : Call) {e : RegistryError} (run : call.act b = .error e b') :
    b' = b ∨ call.Torn b b' := by
  have outcome := call.outcome b
  rw [run] at outcome
  cases outcome with
  | taken => exact .inl rfl
  | refused guard free occupied left =>
      cases call with
      | map key value order =>
          obtain rfl := congrArg Handler.type (Option.some.inj guard)
          subst left
          exact .inr (.map (free _ rfl) occupied)
      | set item order =>
          obtain rfl := congrArg Handler.type (Option.some.inj guard)
          subst left
          exact .inr (.set (free _ rfl) occupied)
      | hashMap key value => exact .inl (by simpa [addition] using left)
      | hashSet item => exact .inl (by simpa [addition] using left)
      | _ => cases guard

theorem error_of_refused (call : Call) {container alternative : Ty} {existing : Handler}
    (guard : call.addition.guard = some (.guard container alternative))
    (free : ∀ h ∈ call.addition.own, b.contains h.type = false)
    (occupied : b.Occupied container existing) : ∃ e, call.act b =
      .error e { b with handlers := b.handlers ++ call.addition.own.toList } := by
  have outcome := call.outcome b
  cases run : call.act b with
  | ok u b' =>
      rw [run] at outcome
      cases outcome with
      | made fits =>
          obtain ⟨alternative', kind⟩ := fits.guard _ guard existing occupied.found
          exact absurd kind (occupied.unguarded alternative')
  | error e b' =>
      rw [run] at outcome
      cases outcome with
      | taken own present =>
          rw [free _ own] at present
          cases present
      | refused _ _ _ left =>
          subst left
          exact ⟨_, rfl⟩

theorem Torn.error {call : Call} (torn : call.Torn b b') :
    b' ≠ b ∧ ∃ e, call.act b = .error e b' := by
  have longer : ∀ h : Handler, { b with handlers := b.handlers ++ [h] } ≠ b := by
    intro h same
    have same := congrArg (·.handlers.length) same
    simp at same
  cases torn with
  | @map key value order existing free occupied =>
      refine ⟨longer _, error_of_refused (.map key value order) rfl ?_ occupied⟩
      rintro _ ⟨⟩
      exact free
  | @set item order existing free occupied =>
      refine ⟨longer _, error_of_refused (.set item order) rfl ?_ occupied⟩
      rintro _ ⟨⟩
      exact free

/-- Registrations that succeed keep what was there and add their own entries, and
those that fail change nothing, unless an ordered container is registered whose
unordered one cannot be guarded: then it stays behind. -/
theorem atomic_unless_torn (call : Call) (b : Builder) :
    (∀ b', call.act b = .ok () b' → call.Grows b b') ∧
      (∀ e b', call.act b = .error e b' → b' = b ∨ call.Torn b b') ∧
        ∀ b', call.Torn b b' → b' ≠ b ∧ ∃ e, call.act b = .error e b' :=
  ⟨fun _ => call.grows, fun _ _ => call.torn_of_error, fun _ => Torn.error⟩

def handled : Builder where
  handlers := [.plain (.hashMap (.scalar .u8) (.scalar .u8)) .nothing .nothing]

theorem atomic_unless_torn_handled :
    Grows (.map .text .text .structural) handled
      { handled with handlers := handled.handlers ++ [.map .text .text .structural,
        .guard (.hashMap .text .text) (.map .text .text)] } ∧
    ∃ e, (Call.map (.scalar .u8) (.scalar .u8) .structural).act handled = .error e
      { handled with handlers :=
        handled.handlers ++ [.map (.scalar .u8) (.scalar .u8) .structural] } := by
  have torn : Torn handled (.map (.scalar .u8) (.scalar .u8) .structural) _ :=
    .map (by decide) ⟨rfl, nofun⟩
  exact ⟨(atomic_unless_torn (.map .text .text .structural) handled).1 _ rfl,
    ((atomic_unless_torn _ handled).2.2 _ torn).2⟩

/-- The ordered map was not registered, the registration fails, and now the map is
registered. -/
theorem registerMap_not_atomic : ∃ e b',
    registerMap (.scalar .u8) (.scalar .u8) .structural handled = .error e b' ∧
      handled.contains (.map (.scalar .u8) (.scalar .u8)) = false ∧
        b'.contains (.map (.scalar .u8) (.scalar .u8)) = true := by
  have run : registerMap (.scalar .u8) (.scalar .u8) .structural handled = .error _
      { handled with handlers :=
        handled.handlers ++ [.map (.scalar .u8) (.scalar .u8) .structural] } := rfl
  exact ⟨_, _, run, by decide, by decide⟩

end Call

end Chronicle.Builder
