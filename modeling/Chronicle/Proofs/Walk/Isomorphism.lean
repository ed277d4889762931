import Chronicle.Walk.Snapshot
import Mathlib.Data.Set.Function

/-!
# Isomorphic graphs

The places of objects in a heap carry no meaning of their own.  Two graphs are
the same when the objects that can be reached from one root stand one to one
for those of the other, each with its type and with its content up to the
places that references name.
-/

namespace Chronicle

/-! ## References of a value -/

namespace Value

variable {f g : Nat → Nat} {id : Nat}

theorem renameAll_eq_map (f : Nat → Nat) (vs : List Value) :
    renameAll f vs = vs.map (rename f) := by
  induction vs with
  | nil => rfl
  | cons v rest ih => rw [renameAll, List.map_cons, ih]

theorem mem_referencesAll {vs : List Value} :
    id ∈ referencesAll vs ↔ ∃ v ∈ vs, id ∈ v.references := by
  induction vs with
  | nil => simp [referencesAll]
  | cons v rest ih => simp [referencesAll, ih]

mutual

theorem rename_congr : ∀ {v : Value}, (∀ id ∈ v.references, f id = g id) →
    v.rename f = v.rename g
  | .object id, same => by
      rw [rename, rename, same id (by simp [references])]
  | .present v, same => by
      rw [rename, rename, rename_congr (v := v) same]
  | .list items, same => by
      have all : renameAll f items = renameAll g items := renameAll_congr same
      rw [rename, rename, all]
  | .entry k v, same => by
      have left : k.rename f = k.rename g := rename_congr fun id member =>
        same id (by rw [references]; exact List.mem_append_left _ member)
      have right : v.rename f = v.rename g := rename_congr fun id member =>
        same id (by rw [references]; exact List.mem_append_right _ member)
      rw [rename, rename, left, right]
  | .unit, _ | .bool _, _ | .int _, _ | .text _, _ | .bytes _, _ | .plain _, _ | .absent, _
  | .nothing, _ | .asset _, _ => rfl

theorem renameAll_congr : ∀ {vs : List Value}, (∀ id ∈ referencesAll vs, f id = g id) →
    renameAll f vs = renameAll g vs
  | [], _ => rfl
  | v :: rest, same => by
      have head : v.rename f = v.rename g := rename_congr fun id member =>
        same id (by rw [referencesAll]; exact List.mem_append_left _ member)
      have tail : renameAll f rest = renameAll g rest := renameAll_congr fun id member =>
        same id (by rw [referencesAll]; exact List.mem_append_right _ member)
      rw [renameAll, renameAll, head, tail]

end

mutual

theorem rename_id : ∀ (v : Value), v.rename (fun id => id) = v
  | .object _ => rfl
  | .present v => by rw [rename, rename_id v]
  | .list items => by rw [rename, renameAll_id items]
  | .entry k v => by rw [rename, rename_id k, rename_id v]
  | .unit | .bool _ | .int _ | .text _ | .bytes _ | .plain _ | .absent | .nothing | .asset _ => rfl

theorem renameAll_id : ∀ (vs : List Value), renameAll (fun id => id) vs = vs
  | [] => rfl
  | v :: rest => by rw [renameAll, rename_id v, renameAll_id rest]

end

theorem rename_of_closed {v : Value} (closed : v.references = []) : v.rename f = v := by
  have same : v.rename f = v.rename (fun id => id) := rename_congr (by simp [closed])
  rw [same, rename_id]

mutual

theorem references_rename : ∀ (v : Value), (v.rename f).references = v.references.map f
  | .object _ => rfl
  | .present v => by rw [rename, references, references, references_rename v]
  | .list items => by rw [rename, references, references, referencesAll_rename items]
  | .entry k v => by
      rw [rename, references, references, references_rename k, references_rename v,
        List.map_append]
  | .unit | .bool _ | .int _ | .text _ | .bytes _ | .plain _ | .absent | .nothing | .asset _ => rfl

theorem referencesAll_rename : ∀ (vs : List Value),
    referencesAll (renameAll f vs) = (referencesAll vs).map f
  | [] => rfl
  | v :: rest => by
      rw [renameAll, referencesAll, referencesAll, references_rename v,
        referencesAll_rename rest, List.map_append]

end

end Value

/-! ## Graphs -/

namespace Graph

inductive Reaches (g : Graph) : Nat → Prop
  | root {id : Nat} : id ∈ g.root.references → Reaches g id
  | step {id next : Nat} {cell : Cell} : Reaches g id → g.heap[id]? = some cell →
      next ∈ cell.content.references → Reaches g next

/-- The objects reached in `g` stand one to one for those reached in `g'`, with
the same types and contents. -/
structure Isomorphism (g g' : Graph) (f : Nat → Nat) : Prop where
  type_eq : g'.type = g.type
  root_eq : g'.root = g.root.rename f
  bijective : Set.BijOn f {id | g.Reaches id} {id | g'.Reaches id}
  cell_eq : ∀ id, g.Reaches id → ∃ cell, g.heap[id]? = some cell ∧
    g'.heap[f id]? = some { cell with content := cell.content.rename f }

/-- A redirection that carries the root and every reached object over, and keeps
reached objects apart, is an isomorphism. -/
theorem Isomorphism.of_copy {g g' : Graph} {f : Nat → Nat} (type_eq : g'.type = g.type)
    (root_eq : g'.root = g.root.rename f) (apart : Set.InjOn f {id | g.Reaches id})
    (copied : ∀ id, g.Reaches id → ∃ cell, g.heap[id]? = some cell ∧
      g'.heap[f id]? = some { cell with content := cell.content.rename f }) :
    Isomorphism g g' f where
  type_eq := type_eq
  root_eq := root_eq
  cell_eq := copied
  bijective := by
    refine ⟨?_, apart, ?_⟩
    · intro id reached
      induction reached with
      | root member =>
          apply Reaches.root
          rw [root_eq, Value.references_rename]
          exact List.mem_map_of_mem member
      | step reached found member ih =>
          obtain ⟨cell, source, target⟩ := copied _ reached
          rw [found, Option.some_inj] at source
          subst source
          apply Reaches.step ih target
          rw [Value.references_rename]
          exact List.mem_map_of_mem member
    · intro id reached
      induction reached with
      | root member =>
          rw [root_eq, Value.references_rename, List.mem_map] at member
          obtain ⟨source, member, rfl⟩ := member
          exact ⟨source, Reaches.root member, rfl⟩
      | step _ found member ih =>
          obtain ⟨source, reached, rfl⟩ := ih
          obtain ⟨cell, here, target⟩ := copied source reached
          rw [target, Option.some_inj] at found
          subst found
          rw [Value.references_rename, List.mem_map] at member
          obtain ⟨next, member, rfl⟩ := member
          exact ⟨next, Reaches.step reached here member, rfl⟩

theorem Isomorphism.of_met {g g' : Graph} {f : Nat → Nat} {met : Array Nat}
    (type_eq : g'.type = g.type) (root_eq : g'.root = g.root.rename f)
    (known : ∀ id ∈ g.root.references, id ∈ met)
    (apart : ∀ a ∈ met, ∀ b ∈ met, f a = f b → a = b)
    (copied : ∀ id ∈ met, ∃ cell, g.heap[id]? = some cell ∧
      (∀ k ∈ cell.content.references, k ∈ met) ∧
      g'.heap[f id]? = some { cell with content := cell.content.rename f }) :
    Isomorphism g g' f := by
  have reached_met : ∀ id, g.Reaches id → id ∈ met := by
    intro id reached
    induction reached with
    | root member => exact known _ member
    | step _ found member ih =>
        obtain ⟨cell, here, inside, _⟩ := copied _ ih
        obtain rfl := Option.some.inj (found.symm.trans here)
        exact inside _ member
  refine .of_copy type_eq root_eq ?_ fun id reached => ?_
  · intro a reachedA b reachedB same
    exact apart a (reached_met a reachedA) b (reached_met b reachedB) same
  · obtain ⟨cell, here, _, there⟩ := copied id (reached_met id reached)
    exact ⟨cell, here, there⟩

end Graph

end Chronicle
