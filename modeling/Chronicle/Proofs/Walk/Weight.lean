import Chronicle.Proofs.Success

/-!
# Weights of values

How much work the calls for a value and its parts may be.  Fresh values of a
registry's types have a common bound, since there are finitely many handlers to
make them.
-/

namespace Chronicle

open Success

mutual

def Value.weight : Value → Nat
  | .present v => v.weight + 2
  | .list items => weightAll items + 2
  | .entry k v => k.weight + v.weight + 4
  | _ => 2

def weightAll : List Value → Nat
  | [] => 0
  | v :: rest => v.weight + 2 + weightAll rest

end

mutual

def Template.weight : Template → Nat
  | .value v => v.weight
  | .object _ _ => 2
  | .list items => templatesWeight items + 2

def templatesWeight : List Template → Nat
  | [] => 0
  | t :: rest => t.weight + 2 + templatesWeight rest

end

mutual

theorem Template.weight_make : ∀ (t : Template) (h : Heap), (t.make h).1.weight = t.weight
  | .value _, _ => rfl
  | .object _ _, _ => rfl
  | .list items, h => by
      have all := weight_makeAll items h
      simp only [Template.make, Template.weight, Value.weight, all]

theorem weight_makeAll : ∀ (ts : List Template) (h : Heap),
    weightAll (makeAll ts h).1 = templatesWeight ts
  | [], _ => rfl
  | t :: rest, h => by
      have head := t.weight_make h
      have tail := weight_makeAll rest (t.make h).2
      simp only [makeAll, templatesWeight, weightAll, head, tail]

end

namespace Handler

def blankWeight (h : Handler) : Nat :=
  match h.initializer with
  | some (.template t) => t.weight
  | _ => 0

end Handler

/-- The largest weight among the fresh values of some handlers. -/
def heaviest : List Handler → Nat
  | [] => 2
  | h :: rest => max h.blankWeight (heaviest rest)

theorem two_le_heaviest (handlers : List Handler) : 2 ≤ heaviest handlers := by
  induction handlers with
  | nil => exact Nat.le_refl _
  | cons h rest ih => exact Nat.le_trans ih (Nat.le_max_right _ _)

theorem blankWeight_le_heaviest {h : Handler} {handlers : List Handler} (member : h ∈ handlers) :
    h.blankWeight ≤ heaviest handlers := by
  induction member with
  | head rest => exact Nat.le_max_left _ _
  | tail other _ ih => exact Nat.le_trans ih (Nat.le_max_right _ _)

namespace Registry

variable {r : Registry} {type : Ty}

theorem weight_template_le {t : Template} (found : r.initializer type = .ok (.template t)) :
    t.weight ≤ heaviest r.handlers := by
  unfold initializer resolve at found
  cases known : r.find? type with
  | none => simp [known, bind, Except.bind] at found
  | some h =>
      cases makes : h.initializer with
      | none => simp [known, makes, bind, Except.bind] at found
      | some i =>
          have same : i = .template t := by
            simpa [known, makes, bind, Except.bind, pure, Except.pure] using found
          have weighed : h.blankWeight = t.weight := by rw [Handler.blankWeight, makes, same]
          exact weighed ▸ blankWeight_le_heaviest (List.mem_of_find?_eq_some known)

theorem weight_blank_le {h h' : Heap} {blank : Value}
    (made : r.makeBlank type h = .ok blank h') : blank.weight ≤ heaviest r.handlers := by
  rw [makeBlank.eq_def] at made
  cases found : r.initializer type with
  | error e => simp [found, liftResult, bind_eq_ok, throw_eq_ok] at made
  | ok way =>
      cases way with
      | template t =>
          have same : (t.make h).1 = blank := by
            rw [found] at made
            exact (EStateM.Result.ok.inj made).1
          rw [← same, t.weight_make h]
          exact weight_template_le found
      | refused container alternative => simp [found, liftResult, throw_eq_ok] at made
      | placeholder =>
          cases type with
          | shared content =>
              simp only [found, liftResult, pure_bind, bind_eq_ok] at made
              obtain ⟨v, h₁, _, id, h₂, _, last⟩ := made
              obtain ⟨rfl, _⟩ := pure_eq_ok.mp last
              exact two_le_heaviest r.handlers
          | _ => simp [found, liftResult, throw_eq_ok] at made

end Registry

end Chronicle
