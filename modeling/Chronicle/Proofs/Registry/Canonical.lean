import Chronicle.Proofs.Registry.Commuting
import Chronicle.Registry.Basic
import Chronicle.StructuralOrder

/-!
# Registries that do not depend on an order

Building sorts whatever it takes from a table: the names that have to be
distinct, the contents to be validated, the contents to be tagged, the records
of the fingerprint and the dependencies in each.  Every one of these orders tells
apart all that can meet in it, so the sorted lists are the same in whatever order
the tables are gone through, and so is the outcome.
-/

namespace Chronicle

/-! ## Sorted lists -/

theorem pairwise_mergeSort_of_cmp {α : Type} (cmp : α → α → Ordering) [Std.TransCmp cmp]
    (l : List α) : (l.mergeSort fun a b => (cmp a b).isLE).Pairwise fun a b => (cmp a b).isLE := by
  refine List.pairwise_mergeSort (fun a b c => Std.TransCmp.isLE_trans) (fun a b => ?_) l
  have swapped : cmp b a = (cmp a b).swap := Std.OrientedCmp.eq_swap
  rw [swapped]
  cases cmp a b <;> rfl

theorem mergeSort_eq_of_perm {α : Type} (cmp : α → α → Ordering) [Std.TransCmp cmp]
    {l l' : List α} (perm : l.Perm l') (apart : ∀ a ∈ l, ∀ b ∈ l, cmp a b = .eq → a = b) :
    (l.mergeSort fun a b => (cmp a b).isLE) = l'.mergeSort fun a b => (cmp a b).isLE := by
  have sorted := pairwise_mergeSort_of_cmp cmp
  refine List.Perm.eq_of_pairwise ?_ (sorted l) (sorted l') ?_
  · intro a b first second le ge
    have member := List.mem_mergeSort.mp first
    have member' := perm.mem_iff.mpr (List.mem_mergeSort.mp second)
    exact apart a member b member' (Std.OrientedCmp.isLE_antisymm le ge)
  · exact (List.mergeSort_perm l _).trans (perm.trans (List.mergeSort_perm l' _).symm)

theorem isLE_of_isLE_then {first second : Ordering} (le : (first.then second).isLE) :
    first.isLE := by
  cases first <;> simp at le ⊢

theorem transCmp_comap {α β : Type} (f : α → β) (cmp : β → β → Ordering) [Std.TransCmp cmp] :
    Std.TransCmp fun a b => cmp (f a) (f b) where
  eq_swap := Std.OrientedCmp.eq_swap
  isLE_trans := Std.TransCmp.isLE_trans

namespace HandlerRecord

instance : Std.TransCmp dependencyCmp :=
  inferInstanceAs (Std.TransCmp (compareLex (compareOn Prod.fst) (compareOn Prod.snd)))

theorem eq_of_dependencyCmp {a b : String × Bool} (same : dependencyCmp a b = .eq) : a = b := by
  rw [dependencyCmp, Ordering.then_eq_eq] at same
  exact Prod.ext (Std.LawfulEqCmp.eq_of_compare same.1) (Std.LawfulEqCmp.eq_of_compare same.2)

theorem dependenciesCmp_eq (as bs : List (String × Bool)) :
    dependenciesCmp as bs = List.compareLex dependencyCmp as bs := by
  induction as generalizing bs with
  | nil => cases bs <;> rfl
  | cons a as ih =>
      cases bs with
      | nil => rfl
      | cons b bs => rw [dependenciesCmp, List.compareLex_cons_cons, ih]

instance : Std.LawfulEqCmp dependencyCmp where
  compare_self := by simp [dependencyCmp]
  eq_of_compare := eq_of_dependencyCmp

instance : Std.TransCmp dependenciesCmp := by
  have same : dependenciesCmp = List.compareLex dependencyCmp :=
    funext₂ dependenciesCmp_eq
  rw [same]
  infer_instance

instance : Std.TransCmp cmp :=
  have := transCmp_comap HandlerRecord.dependencies dependenciesCmp
  inferInstanceAs (Std.TransCmp (compareLex (compareOn HandlerRecord.name)
    (compareLex (compareOn HandlerRecord.kind) (compareLex (compareOn HandlerRecord.operations)
      fun a b => dependenciesCmp a.dependencies b.dependencies))))

theorem eq_of_cmp {a b : HandlerRecord} (same : a.cmp b = .eq) : a = b := by
  simp only [cmp, Ordering.then_eq_eq, dependenciesCmp_eq] at same
  obtain ⟨name, kind, operations, dependencies⟩ := same
  have name := Std.LawfulEqCmp.eq_of_compare name
  have kind := Std.LawfulEqCmp.eq_of_compare kind
  have operations := Std.LawfulEqCmp.eq_of_compare operations
  have dependencies := Std.LawfulEqCmp.eq_of_compare dependencies
  cases a
  cases b
  simp_all

end HandlerRecord

/-! ## The outcome of building -/

def Apart (types : List Ty) : Prop := ∀ s ∈ types, ∀ t ∈ types, s.name = t.name → s = t

theorem Apart.perm {types types' : List Ty} (apart : Apart types) (perm : types.Perm types') :
    Apart types' :=
  fun s first t second => apart s (perm.mem_iff.mpr first) t (perm.mem_iff.mpr second)

/-- The same error, or registries with the same fingerprint, names and tags. -/
inductive Agree : Except RegistryError Registry → Except RegistryError Registry → Prop
  | error (e : RegistryError) : Agree (.error e) (.error e)
  | ok {r r' : Registry} : r.fingerprint = r'.fingerprint → r.typeNames = r'.typeNames →
      (∀ content, r.tag? content = r'.tag? content) → Agree (.ok r) (.ok r')

namespace Builder.Shuffles

variable {b c : Builder}

theorem stableName_eq (shuffles : Shuffles b c) (keyed : b.Keyed) :
    b.stableName = c.stableName := by
  funext type
  rw [stableName, stableName, shuffles.find?_eq keyed]

theorem records_eq (shuffles : Shuffles b c) (keyed : b.Keyed) : b.records = c.records := by
  have same : HandlerRecord.ofHandler b = HandlerRecord.ofHandler c := by
    funext h
    simp only [HandlerRecord.ofHandler, shuffles.stableName_eq keyed]
  rw [records, records, same]
  exact mergeSort_eq_of_perm _ (shuffles.handlers.map _) fun _ _ _ _ => HandlerRecord.eq_of_cmp

theorem fed_eq (shuffles : Shuffles b c) (keyed : b.Keyed) : b.fed = c.fed := by
  rw [fed, fed, shuffles.records_eq keyed]

theorem tagOrder_eq (shuffles : Shuffles b c) (keyed : b.Keyed) (apart : Apart b.contents) :
    b.tagOrder = c.tagOrder := by
  rw [tagOrder, tagOrder, shuffles.stableName_eq keyed]
  refine mergeSort_eq_of_perm (compareLex (compareOn c.stableName) (compareOn Ty.name))
    shuffles.contents fun s first t second same => apart s first t second ?_
  rw [compareLex_eq_eq] at same
  exact Std.LawfulEqCmp.eq_of_compare same.2

/-! ## Validation -/

open Validation

theorem checkNames_eq (shuffles : Shuffles b c) : checkNames b = checkNames c := by
  have claimed : (claimedNames b).Perm (claimedNames c) := (shuffles.handlers.filter _).map _
  have sorted : (claimedNames b).mergeSort nameLe = (claimedNames c).mergeSort nameLe := by
    refine mergeSort_eq_of_perm (compareLex (compareOn Prod.fst) (compareOn Prod.snd)) claimed ?_
    intro a _ a' _ same
    rw [compareLex_eq_eq] at same
    exact Prod.ext (Std.LawfulEqCmp.eq_of_compare same.1) (Std.LawfulEqCmp.eq_of_compare same.2)
  rw [checkNames, checkNames, sorted]

theorem search_eq (lookup : ∀ type, b.find? type = c.find? type) {fresh fresh' : List Ty}
    (perm : fresh.Perm fresh') (pending : List Demand) :
    search b fresh pending = search c fresh' pending := by
  fun_induction search b fresh pending generalizing fresh' with
  | case1 => rw [search]
  | case2 fresh d rest missing =>
      rw [search, ← lookup, missing]
  | case3 fresh d rest h found e objection =>
      rw [search, ← lookup, found]
      simp only [objection]
  | case4 fresh d rest h found none_found member e objection =>
      rw [search, ← lookup, found]
      simp only [none_found, perm.mem_iff.mp member, objection, ↓reduceIte]
  | case5 fresh d rest h found none_found member none_entered ih =>
      rw [search, ← lookup, found]
      simp only [none_found, perm.mem_iff.mp member, none_entered, ↓reduceIte]
      exact ih (perm.erase _)
  | case6 fresh d rest h found none_found absent ih =>
      have absent' : d.dependency.type ∉ fresh' := fun member => absent (perm.mem_iff.mpr member)
      rw [search, ← lookup, found]
      simp only [none_found, absent', ↓reduceIte]
      exact ih perm

theorem validateFrom_eq (shuffles : Shuffles b c) (keyed : b.Keyed) (root : Ty)
    (requiredBy : String) : validateFrom b root requiredBy = validateFrom c root requiredBy :=
  search_eq (shuffles.find?_eq keyed) (shuffles.handlers.map _) _

theorem sortedContents_eq (shuffles : Shuffles b c) (apart : Apart b.contents) :
    sortedContents b = sortedContents c := by
  refine mergeSort_eq_of_perm (compareOn Ty.name) shuffles.contents ?_
  exact fun s first t second same => apart s first t second (Std.LawfulEqCmp.eq_of_compare same)

theorem validate_eq (shuffles : Shuffles b c) (keyed : b.Keyed) (apart : Apart b.contents) :
    validate b = validate c := by
  simp only [validate, shuffles.checkNames_eq, shuffles.roots, shuffles.sortedContents_eq apart,
    shuffles.validateFrom_eq keyed]

theorem agree (shuffles : Shuffles b c) (keyed : b.Keyed) (apart : Apart b.contents) :
    Agree b.build c.build := by
  have names : (b.handlers.map (·.name)).Perm (c.handlers.map (·.name)) := shuffles.handlers.map _
  rw [build, build, ← shuffles.validate_eq keyed apart]
  cases validate b with
  | error e => exact .error e
  | ok u =>
      refine .ok ?_ ?_ ?_
      · exact congrArg Fingerprint.ofFed (shuffles.fed_eq keyed)
      · exact mergeSort_eq_of_perm compare names fun _ _ _ _ => Std.LawfulEqCmp.eq_of_compare
      · exact fun content => congrArg (·.idxOf? content) (shuffles.tagOrder_eq keyed apart)

end Builder.Shuffles

namespace Builder

variable {b c : Builder}

/-! ## Roots -/

def declareRoots (types : List Ty) (b : Builder) : Builder :=
  types.foldl (fun b type => b.declareRoot type) b

theorem declareRoot_eq (type : Ty) (b : Builder) : b.declareRoot type =
    { b with roots := if type ∈ b.roots then b.roots else b.roots ++ [type] } := by
  unfold declareRoot
  split <;> rfl

theorem entries_declareRoots (types : List Ty) (b : Builder) :
    (b.declareRoots types).handlers = b.handlers ∧
      (b.declareRoots types).contents = b.contents := by
  induction types generalizing b with
  | nil => exact ⟨rfl, rfl⟩
  | cons type types ih =>
      have rest := ih (b.declareRoot type)
      rw [declareRoot_eq] at rest
      simpa only [declareRoots, List.foldl_cons, declareRoot_eq] using rest

theorem Shuffles.declareRoots (shuffles : Shuffles b c) (types : List Ty) :
    Shuffles (b.declareRoots types) (c.declareRoots types) := by
  induction types generalizing b c with
  | nil => exact shuffles
  | cons type types ih =>
      have next : Shuffles (b.declareRoot type) (c.declareRoot type) := by
        rw [declareRoot_eq, declareRoot_eq]
        exact ⟨shuffles.handlers, shuffles.contents, by rw [shuffles.roots]⟩
      exact ih next

/-! ## Registrations in any order -/

/-- Registrations on a fresh builder that all succeed do so in every order.  With
the same roots declared, building then comes out alike, in whatever order the
entries of either builder are gone through. -/
theorem build_agrees_of_perm {b b' : Builder} (fresh : b = {} ∨ b = withBasics)
    {acts acts' : List (Registering Unit)} (registrations : ∀ act ∈ acts, Registration act)
    (permuted : acts.Perm acts') (run : acts.forM id b = .ok () b') (apart : Apart b'.contents) :
    ∃ b'', acts'.forM id b = .ok () b'' ∧ ∀ (roots : List Ty) (c c' : Builder),
      Shuffles (b'.declareRoots roots) c → Shuffles (b''.declareRoots roots) c' →
        Agree c.build c'.build := by
  have keyed : b.Keyed := by
    rcases fresh with rfl | rfl
    · exact List.nodup_nil
    · unfold Keyed
      decide
  have keyed' := forM_keyed registrations keyed run
  obtain ⟨b'', run', shuffles⟩ := forM_perm permuted registrations keyed run
  refine ⟨b'', run', fun roots c c' order order' => ?_⟩
  obtain ⟨handlers, contents⟩ := entries_declareRoots roots b'
  have keyed_roots : (b'.declareRoots roots).Keyed := by
    rw [Keyed, handlers]
    exact keyed'
  rw [← contents] at apart
  have whole := order.symm.trans ((shuffles.declareRoots roots).trans order')
  exact whole.agree (order.keyed keyed_roots) (apart.perm order.contents)

def mixedRegistrations : List (Registering Unit) :=
  [registerMap .text (.scalar .u32) .structural, registerShared (.named "content"),
    registerShared .text, guardHashMap .text (.scalar .u32),
    register (.plain (.named "content") .nothing .nothing)]

theorem build_agrees_of_perm_reverse :
    (∀ act ∈ mixedRegistrations, Registration act) ∧
    mixedRegistrations.Perm mixedRegistrations.reverse ∧
    ∃ b' b'', mixedRegistrations.forM id withBasics = .ok () b' ∧ Apart b'.contents ∧
      mixedRegistrations.reverse.forM id withBasics = .ok () b'' ∧
      Agree (b'.declareRoots [.text]).build
        ({ b''.declareRoots [.text] with
          handlers := (b''.declareRoots [.text]).handlers.reverse } : Builder).build := by
  have registrations : ∀ act ∈ mixedRegistrations, Registration act := by
    simp only [mixedRegistrations, List.forall_mem_cons]
    exact ⟨.map _ _ _, .shared _, .shared _, .hashMap _ _, .handler rfl, by simp⟩
  have permuted : mixedRegistrations.Perm mixedRegistrations.reverse := (List.reverse_perm _).symm
  obtain ⟨b', run, contents⟩ : ∃ b', mixedRegistrations.forM id withBasics = .ok () b' ∧
      b'.contents = [.named "content", .text] := ⟨_, rfl, rfl⟩
  have apart : Apart b'.contents := by
    rw [contents, Apart]
    decide
  obtain ⟨b'', run', alike⟩ := build_agrees_of_perm (.inr rfl) registrations permuted run apart
  exact ⟨registrations, permuted, b', b'', run, apart, run',
    alike [.text] _ _ (.refl _) ⟨(List.reverse_perm _).symm, .refl _, rfl⟩⟩

end Builder

end Chronicle
