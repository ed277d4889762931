import Chronicle.Registry.Basic

/-!
# Success of sequenced work

A sequence of steps succeeds exactly when its steps succeed one after the
other.  The equations below take a successful run apart into the runs of its
steps, and put it together again.
-/

namespace Chronicle.Success

variable {ε σ α β : Type} {s t : σ}

theorem bind_eq_ok {x : EStateM ε σ α} {f : α → EStateM ε σ β} {b : β} :
    (x >>= f) s = .ok b t ↔ ∃ a u, x s = .ok a u ∧ f a u = .ok b t := by
  change (EStateM.bind x f s = .ok b t) ↔ _
  unfold EStateM.bind
  cases x s with
  | ok a u =>
      constructor
      · intro run
        exact ⟨a, u, rfl, run⟩
      · rintro ⟨a, u, ⟨⟩, run⟩
        exact run
  | error e u => simp

theorem bind_of_ok {x : EStateM ε σ α} {a : α} (run : x s = .ok a t)
    (f : α → EStateM ε σ β) : (x >>= f) s = f a t := by
  change EStateM.bind x f s = f a t
  unfold EStateM.bind
  rw [run]

theorem bind_of_error {x : EStateM ε σ α} {e : ε} (run : x s = .error e t)
    (f : α → EStateM ε σ β) : (x >>= f) s = .error e t := by
  change EStateM.bind x f s = .error e t
  unfold EStateM.bind
  rw [run]

theorem bind_eq_error {x : EStateM ε σ α} {f : α → EStateM ε σ β} {e : ε} :
    (x >>= f) s = .error e t ↔ x s = .error e t ∨ ∃ a u, x s = .ok a u ∧ f a u = .error e t := by
  change (EStateM.bind x f s = .error e t) ↔ _
  unfold EStateM.bind
  cases x s with
  | ok a u =>
      constructor
      · intro run
        exact .inr ⟨a, u, rfl, run⟩
      · rintro (early | ⟨a, u, ⟨⟩, run⟩)
        · contradiction
        · exact run
  | error e u => simp

theorem get_bind (f : σ → EStateM ε σ β) : (get >>= f) s = f s s := rfl

theorem pure_eq_ok {a b : α} :
    (pure a : EStateM ε σ α) s = .ok b t ↔ a = b ∧ s = t := by
  change (EStateM.Result.ok a s : EStateM.Result ε σ α) = .ok b t ↔ _
  simp

theorem pure_eq_error {a : α} {e : ε} :
    (pure a : EStateM ε σ α) s = .error e t ↔ False := by
  change (EStateM.Result.ok a s : EStateM.Result ε σ α) = .error e t ↔ _
  simp

theorem throw_eq_error {e e' : ε} :
    (throw e : EStateM ε σ α) s = .error e' t ↔ e = e' ∧ s = t := by
  change (EStateM.Result.error e s : EStateM.Result ε σ α) = .error e' t ↔ _
  simp

theorem throw_eq_ok {e : ε} {b : α} :
    (throw e : EStateM ε σ α) s = .ok b t ↔ False := by
  change (EStateM.Result.error e s : EStateM.Result ε σ α) = .ok b t ↔ _
  simp

theorem get_eq_ok {u : σ} :
    (get : EStateM ε σ σ) s = .ok u t ↔ s = u ∧ s = t := by
  change (EStateM.Result.ok s s : EStateM.Result ε σ σ) = .ok u t ↔ _
  simp

theorem set_eq_ok {u : σ} {a : Unit} :
    (set u : EStateM ε σ Unit) s = .ok a t ↔ u = t := by
  change (EStateM.Result.ok () u : EStateM.Result ε σ Unit) = .ok a t ↔ _
  simp

theorem modify_eq_ok {f : σ → σ} {a : Unit} :
    (modify f : EStateM ε σ Unit) s = .ok a t ↔ f s = t := by
  change (EStateM.Result.ok () (f s) : EStateM.Result ε σ Unit) = .ok a t ↔ _
  simp

theorem liftResult_eq_ok {result : Except WalkError α} {a : α} :
    (liftResult result : EStateM WalkError σ α) s = .ok a t ↔ result = .ok a ∧ s = t := by
  cases result with
  | ok b => simp [liftResult, pure_eq_ok]
  | error e => simp [liftResult, throw_eq_ok]

theorem except_bind_eq_ok {x : Except ε α} {f : α → Except ε β} {b : β} :
    (x >>= f) = .ok b ↔ ∃ a, x = .ok a ∧ f a = .ok b := by
  cases x with
  | ok a =>
      change f a = .ok b ↔ _
      simp
  | error e =>
      change Except.error e = .ok b ↔ _
      simp

theorem except_bind_eq_error {x : Except ε α} {f : α → Except ε β} {e : ε} :
    (x >>= f) = .error e ↔ x = .error e ∨ ∃ a, x = .ok a ∧ f a = .error e := by
  cases x with
  | ok a =>
      change f a = .error e ↔ _
      simp
  | error e' =>
      change Except.error e' = .error e ↔ _
      simp

theorem except_throw_eq_error {e e' : ε} :
    (throw e : Except ε α) = .error e' ↔ e = e' := by
  change Except.error e = .error e' ↔ _
  simp

theorem except_pure_eq_error {a : α} {e : ε} :
    (pure a : Except ε α) = .error e ↔ False := by
  change Except.ok a = .error e ↔ _
  simp

end Chronicle.Success

namespace Chronicle

def finalState {ε σ α : Type} : EStateM.Result ε σ α → σ
  | .ok _ s => s
  | .error _ s => s

@[simp] theorem finalState_ok {ε σ α : Type} (a : α) (s : σ) :
    finalState (.ok a s : EStateM.Result ε σ α) = s := rfl

@[simp] theorem finalState_error {ε σ α : Type} (e : ε) (s : σ) :
    finalState (.error e s : EStateM.Result ε σ α) = s := rfl

open Success

/-! ## Outcomes without certain errors -/

section Avoids

variable {ε σ α β : Type} {bad : ε → Prop} {s : σ}

def Avoids (bad : ε → Prop) : EStateM.Result ε σ α → Prop
  | .ok _ _ => True
  | .error e _ => ¬ bad e

theorem Avoids.pure (a : α) : Avoids bad ((Pure.pure a : EStateM ε σ α) s) := trivial

theorem Avoids.throw {e : ε} (other : ¬ bad e) :
    Avoids bad ((MonadExcept.throw e : EStateM ε σ α) s) := other

theorem Avoids.of_ok {result : EStateM.Result ε σ α} {a : α} {t : σ} (run : result = .ok a t) :
    Avoids bad result := by
  rw [run]
  trivial

theorem Avoids.bind {x : EStateM ε σ α} {f : α → EStateM ε σ β} (first : Avoids bad (x s))
    (rest : ∀ a t, x s = .ok a t → Avoids bad (f a t)) : Avoids bad ((x >>= f) s) := by
  cases run : x s with
  | ok a t =>
      rw [bind_of_ok run]
      exact rest a t run
  | error e t =>
      rw [run] at first
      rw [bind_of_error run]
      exact first

theorem Avoids.not_bad {result : EStateM.Result ε σ α} {e : ε} {t : σ}
    (avoids : Avoids bad result) (run : result = .error e t) : ¬ bad e := by
  rw [run] at avoids
  exact avoids

end Avoids

end Chronicle
