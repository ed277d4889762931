import Chronicle.Proofs.Registry.Canonical
import Chronicle.Proofs.Registry.Search

/-!
# Builders that can be built

Building succeeds exactly on builders whose names are distinct and that meet all
that is demanded of them, such as those whose handlers have all their operations
and lead to registered types only.  The search enters a handler once and takes
each of the demands it declares from the stack once, so the number of declared
dependencies bounds its turns, whether or not they form cycles.
-/

namespace Chronicle

open Success

namespace Validation

variable {b : Builder}

/-! ## Names -/

theorem firstClash?_eq_none {claims : List (String × String)}
    (sorted : claims.Pairwise fun c c' => nameLe c c') :
    firstClash? claims = none ↔ (claims.map Prod.fst).Nodup := by
  induction claims with
  | nil => simp [firstClash?]
  | cons first rest ih =>
      obtain ⟨least, sorted⟩ := List.pairwise_cons.mp sorted
      cases rest with
      | nil => simp [firstClash?]
      | cons second rest =>
          have ih := ih sorted
          rw [firstClash?, List.map_cons, List.nodup_cons]
          by_cases clash : first.1 = second.1
          · simp [clash]
          · rw [if_neg clash, ih, iff_and_self]
            rintro - again
            obtain ⟨other, listed, same⟩ := List.mem_map.mp again
            have before := isLE_of_isLE_then (least second List.mem_cons_self)
            have behind : (compare second.1 first.1).isLE := by
              rcases List.mem_cons.mp listed with rfl | later
              · rw [same]
                exact Std.ReflCmp.isLE_rfl
              · rw [← same]
                exact isLE_of_isLE_then ((List.pairwise_cons.mp sorted).1 other later)
            have same := Std.OrientedCmp.isLE_antisymm before behind
            exact clash (Std.LawfulEqCmp.eq_of_compare same)

theorem checkNames_eq_ok : checkNames b = .ok () ↔
    (b.handlers.filter (·.kind ≠ .shared)).Pairwise fun h h' => h.name ≠ h'.name := by
  have sorted : ((claimedNames b).mergeSort nameLe).Pairwise fun c c' => nameLe c c' :=
    pairwise_mergeSort_of_cmp (compareLex (compareOn Prod.fst) (compareOn Prod.snd)) _
  have claims : (((claimedNames b).mergeSort nameLe).map Prod.fst).Nodup ↔
      ((claimedNames b).map Prod.fst).Nodup :=
    ((List.mergeSort_perm _ _).map _).nodup_iff
  have names : ((claimedNames b).map Prod.fst).Nodup ↔
      (b.handlers.filter (·.kind ≠ .shared)).Pairwise fun h h' => h.name ≠ h'.name := by
    rw [claimedNames, List.map_map, List.Nodup, List.pairwise_map]
    rfl
  rw [← names, ← claims, ← firstClash?_eq_none sorted, checkNames]
  cases firstClash? ((claimedNames b).mergeSort nameLe) <;> simp

/-! ## Demands -/

theorem search_eq_ok (meets : ∀ d, b.Demanded d → ∃ h, b.find? d.type = some h ∧ h.Meets d)
    (fresh : List Ty) (pending : List Demand) (demanded : ∀ d ∈ pending, b.Demanded d.dependency) :
    search b fresh pending = .ok () := by
  have met : ∀ {d : Demand} {h : Handler}, b.Demanded d.dependency →
      b.find? d.dependency.type = some h → h.Meets d.dependency := by
    intro d h demanded found
    obtain ⟨h', found', meets⟩ := meets _ demanded
    obtain rfl := Option.some.inj (found'.symm.trans found)
    exact meets
  fun_induction search b fresh pending with
  | case1 => rfl
  | case2 fresh d rest missing =>
      obtain ⟨h, found, -⟩ := meets _ (demanded d List.mem_cons_self)
      rw [missing] at found
      cases found
  | case3 fresh d rest h found e objection =>
      have none := objection?_eq_none.mpr (met (demanded d List.mem_cons_self) found).toSuits
      rw [objection] at none
      cases none
  | case4 fresh d rest h found _ _ e objection =>
      have meets := met (demanded d List.mem_cons_self) found
      rw [entryObjection?_eq_none.mpr ⟨meets.writes, meets.reads⟩] at objection
      cases objection
  | case5 fresh d rest h found _ _ _ ih =>
      refine ih fun d' member => ?_
      rcases List.mem_append.mp member with own | later
      · obtain ⟨dependency, declared, rfl⟩ := List.mem_map.mp (List.mem_reverse.mp own)
        exact .declared (demanded d List.mem_cons_self) found declared
      · exact demanded d' (List.mem_cons_of_mem _ later)
  | case6 fresh d rest h found _ _ ih =>
      exact ih fun d' member => demanded d' (List.mem_cons_of_mem _ member)

end Validation

/-- No two handlers but those of references have the same name, and whatever is
demanded has a handler that is no guard, writes and reads, and makes fresh values
if they are demanded. -/
structure Builder.WellFormed (b : Builder) : Prop where
  names : (b.handlers.filter (·.kind ≠ .shared)).Pairwise fun h h' => h.name ≠ h'.name
  meets : ∀ d, b.Demanded d → ∃ h, b.find? d.type = some h ∧ h.Meets d

namespace Validation

variable {b : Builder}

theorem validate_iff_wellFormed : validate b = .ok () ↔ b.WellFormed := by
  constructor
  · intro valid
    exact ⟨checkNames_eq_ok.mp (validate_eq_ok.mp valid).1, fun d demanded =>
      Builder.meets_of_demanded valid demanded⟩
  · rintro ⟨names, meets⟩
    have start : ∀ {type : Ty} {requiredBy : String}, b.Demanded ⟨type, true⟩ →
        validateFrom b type requiredBy = .ok () := by
      intro type requiredBy demanded
      exact search_eq_ok meets _ _ fun d single => List.mem_singleton.mp single ▸ demanded
    exact validate_eq_ok.mpr ⟨checkNames_eq_ok.mpr names, fun type root => start (.root root),
      fun type content => start (.content content)⟩

end Validation

/-! ## Complete builders -/

def Validation.unobjectionable (h : Handler) : Bool :=
  (match h.kind with | .guard _ => false | _ => true) &&
    h.initializer.isSome && h.writer.isSome && h.reader.isSome

def Builder.offers (b : Builder) (type : Ty) : Bool :=
  (b.find? type).any Validation.unobjectionable

/-- Handlers that have all their operations lead to such handlers only, and so do the
roots and the contents. -/
structure Builder.Complete (b : Builder) : Prop where
  distinct : ((Validation.claimedNames b).map Prod.fst).Nodup
  handler : ∀ h ∈ b.handlers, Validation.unobjectionable h = true →
    ∀ d ∈ h.dependencies, b.offers d.type = true
  root : ∀ type ∈ b.roots, b.offers type = true
  content : ∀ type ∈ b.contents, b.offers type = true

namespace Builder.Complete

open Validation

variable {b : Builder}

theorem meets_of_unobjectionable {h : Handler} (fine : unobjectionable h = true) (d : Dependency) :
    h.Meets d := by
  simp only [unobjectionable, Bool.and_eq_true, Option.isSome_iff_exists] at fine
  obtain ⟨⟨⟨kind, makes⟩, writes⟩, reads⟩ := fine
  refine ⟨⟨fun alternative guarded => ?_, fun _ => makes⟩, writes, reads⟩
  simp [guarded] at kind

theorem wellFormed (complete : b.Complete) : b.WellFormed where
  names := by
    have distinct := complete.distinct
    rwa [claimedNames, List.map_map, List.Nodup, List.pairwise_map] at distinct
  meets := by
    intro d demanded
    have offered : b.offers d.type = true := by
      induction demanded with
      | root listed => exact complete.root _ listed
      | content listed => exact complete.content _ listed
      | declared _ found member ih =>
          rw [offers, found, Option.any_some] at ih
          exact complete.handler _ (List.mem_of_find?_eq_some found) ih _ member
    obtain ⟨h, found, fine⟩ := (Option.any_eq_true ..).mp offered
    exact ⟨h, found, meets_of_unobjectionable fine d⟩

theorem build_eq_ok (complete : b.Complete) : b.build = .ok {
    handlers := b.handlers
    tags := b.tagOrder
    roots := b.roots
    fingerprint := .ofFed b.fed } := by
  rw [build, validate_iff_wellFormed.mpr complete.wellFormed]
  rfl

end Builder.Complete

/-! ## Turns of the search -/

namespace Validation

variable {b : Builder}

/-- How a turn of the search leaves it: ended, or with the types it has visited and
the demands on its stack. -/
inductive Turn where
  | ended (result : Except RegistryError Unit)
  | pending (visited : List Ty) (stack : List Demand)

def turn (b : Builder) (visited : List Ty) : List Demand → Turn
  | [] => .ended (.ok ())
  | d :: rest =>
      match b.find? d.dependency.type with
      | none => .ended (.error (.unregistered d.dependency.type.name d.requiredBy))
      | some h =>
          match objection? h d with
          | some e => .ended (.error e)
          | none =>
              if d.dependency.type ∈ visited then .pending visited rest
              else
                match entryObjection? h d with
                | some e => .ended (.error e)
                | none => .pending (d.dependency.type :: visited) (demands h ++ rest)

def turns (b : Builder) : Nat → List Ty → List Demand → Turn
  | 0, visited, stack => .pending visited stack
  | n + 1, visited, stack =>
      match turn b visited stack with
      | .ended result => .ended result
      | .pending visited stack => turns b n visited stack

def declared (b : Builder) (type : Ty) : List Dependency :=
  match b.find? type with
  | some h => h.dependencies
  | none => []

/-- A turn enters a handler and trades the demand on top for those it declares, or
takes the demand from the stack, so the stack and what is declared of the handlers
still to be entered bound the turns to come. -/
theorem turns_eq_search {fresh visited : List Ty} {pending : List Demand} {n : Nat}
    (distinct : fresh.Nodup)
    (apart : ∀ type h, b.find? type = some h → (type ∈ fresh ↔ type ∉ visited))
    (enough : pending.length + (fresh.flatMap (declared b)).length ≤ n) :
    turns b (n + 1) visited pending = .ended (search b fresh pending) := by
  fun_induction search b fresh pending generalizing visited n with
  | case1 => rfl
  | case2 fresh d rest missing => simp only [turns, turn, missing]
  | case3 fresh d rest h found e objection => simp only [turns, turn, found, objection]
  | case4 fresh d rest h found none_found member e objection =>
      have new := (apart _ h found).mp member
      simp only [turns, turn, found, none_found, new, ↓reduceIte, objection]
  | case5 fresh d rest h found none_found member none_entered ih =>
      have new := (apart _ h found).mp member
      have budget : (fresh.flatMap (declared b)).length = h.dependencies.length +
          ((fresh.erase d.dependency.type).flatMap (declared b)).length := by
        rw [((List.perm_cons_erase member).flatMap_right _).length_eq, List.flatMap_cons,
          List.length_append, declared, found]
      have added : (demands h).length = h.dependencies.length := by simp [demands]
      rw [List.length_cons] at enough
      obtain ⟨n, rfl⟩ : ∃ m, n = m + 1 := Nat.exists_eq_add_one_of_ne_zero (by omega)
      have next : turns b (n + 1) (d.dependency.type :: visited) (demands h ++ rest) =
          .ended (search b (fresh.erase d.dependency.type) (demands h ++ rest)) := by
        refine ih (distinct.erase _) (fun type h' found' => ?_) ?_
        · rw [distinct.mem_erase_iff, apart type h' found', List.mem_cons, not_or]
        · rw [List.length_append]
          omega
      rw [turns]
      simp only [turn, found, none_found, new, ↓reduceIte, none_entered]
      exact next
  | case6 fresh d rest h found none_found absent ih =>
      have old : d.dependency.type ∈ visited :=
        Decidable.not_not.mp (mt (apart _ h found).mpr absent)
      rw [List.length_cons] at enough
      obtain ⟨n, rfl⟩ : ∃ m, n = m + 1 := Nat.exists_eq_add_one_of_ne_zero (by omega)
      have next : turns b (n + 1) visited rest = .ended (search b fresh rest) :=
        ih distinct apart (by omega)
      rw [turns]
      simp only [turn, found, none_found, old, ↓reduceIte]
      exact next

theorem flatMap_declared (keyed : b.Keyed) :
    (b.handlers.map (·.type)).flatMap (declared b) = b.handlers.flatMap (·.dependencies) := by
  rw [List.flatMap_map]
  refine List.flatMap_congr fun h member => ?_
  rw [declared, (Builder.find?_eq_some_iff keyed).mpr ⟨member, rfl⟩]

end Validation

namespace Builder

open Validation

variable {b : Builder}

theorem turns_eq_validateFrom (keyed : b.Keyed) (type : Ty) (requiredBy : String) :
    turns b ((b.handlers.flatMap (·.dependencies)).length + 2) [] [⟨⟨type, true⟩, requiredBy⟩] =
      .ended (validateFrom b type requiredBy) := by
  refine turns_eq_search keyed (fun type' h found => ?_) ?_
  · obtain ⟨member, rfl⟩ := (find?_eq_some_iff keyed).mp found
    simp [List.mem_map_of_mem member]
  · rw [flatMap_declared keyed, List.length_singleton]
    omega

/-- A builder can be built exactly if it is well formed, and a search from any type
has ended after two turns more than there are declared dependencies. -/
theorem build_iff_wellFormed (b : Builder) :
    ((∃ r, b.build = .ok r) ↔ b.WellFormed) ∧
      (b.Keyed → ∀ (type : Ty) (requiredBy : String),
        turns b ((b.handlers.flatMap (·.dependencies)).length + 2) []
          [⟨⟨type, true⟩, requiredBy⟩] = .ended (validateFrom b type requiredBy)) := by
  refine ⟨?_, turns_eq_validateFrom⟩
  rw [← validate_iff_wellFormed]
  constructor
  · rintro ⟨r, built⟩
    exact (validate_of_build built).1
  · intro valid
    rw [build, valid]
    exact ⟨_, rfl⟩

def cyclic : Builder where
  handlers := [
    { Handler.plain (.named "node") .nothing (.record [.text, .option (.named "node")]) with
      dependencies := [Handler.inPlace .text, Handler.creates (.option (.named "node"))] },
    .option (.named "node"),
    .plain .text (.text "") .text]
  roots := [.named "node"]

theorem build_iff_wellFormed_cyclic : cyclic.Keyed ∧ (∃ r, cyclic.build = .ok r) ∧
    turns cyclic 5 [] [⟨Handler.creates (.named "node"), "<root>"⟩] =
      .ended (validateFrom cyclic (.named "node") "<root>") := by
  have keyed : cyclic.Keyed := by
    unfold Keyed
    decide
  have complete : cyclic.Complete := by
    constructor <;> decide
  have main := build_iff_wellFormed cyclic
  exact ⟨keyed, main.1.mpr complete.wellFormed, main.2 keyed (.named "node") "<root>"⟩

end Builder

end Chronicle
