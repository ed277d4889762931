import Chronicle.Proofs.Walk.Advancing

/-!
# A walk on one level

A walk is told how many octets are left, to bound how deep fresh values lie in
each other.  The number never shows: fresh values are made only after an octet
was taken, so a walk fills a value and makes fresh values by that same walk.
-/

namespace Chronicle

open Success

namespace Read

variable {c : ReadContext} {lower : Lower} {s t : ReadState}

def Agree (octets : Nat) (f g : Ty → Read Value) : Prop :=
  ∀ type (s : ReadState), s.input.remaining < octets → f type s = g type s

/-! ## Making fresh values in one way or another -/

section Agreeing

variable {octets : Nat} {f g : Ty → Read Value}

theorem bind_agree {ε α β : Type} {x y : EStateM ε ReadState α} {h k : α → EStateM ε ReadState β}
    (first : x s = y s) (rest : ∀ a t, x s = .ok a t → h a t = k a t) :
    (x >>= h) s = (y >>= k) s := by
  cases run : x s with
  | ok a t => rw [bind_of_ok run, bind_of_ok (first ▸ run), rest a t run]
  | error e t => rw [bind_of_error run, bind_of_error (first ▸ run)]

theorem relabel_agree {ε ε' α : Type} {x y : EStateM ε ReadState α} (h : ε → ε')
    (same : x s = y s) : relabel h x s = relabel h y s := by
  rw [relabel, relabel, same]

theorem Advances.remaining_le {ε α : Type} {cause : ε → WalkError} {x : EStateM ε ReadState α}
    {a : α} (advances : Advances cause x) (run : x s = .ok a t) :
    t.input.remaining ≤ s.input.remaining := by
  have onward := advances s
  rw [run] at onward
  exact onward.remaining_le

theorem remaining_relabel {ε ε' α : Type} {h : ε → ε'} {x : EStateM ε ReadState α} {a : α}
    {cause : ε → WalkError} (advances : Advances cause x) (run : relabel h x s = .ok a t) :
    t.input.remaining ≤ s.input.remaining := by
  refine advances.remaining_le (a := a) ?_
  unfold relabel at run
  split at run
  · next found => cases run; exact found
  · cases run

theorem items_agree {next next' : Read Value} (advances : Advances id next)
    (same : ∀ s : ReadState, s.input.remaining < octets → next s = next' s) (count : Nat)
    (acc : Array Value) (room : s.input.remaining < octets) :
    items next count acc s = items next' count acc s := by
  induction count generalizing s acc with
  | zero => rfl
  | succ count ih =>
      simp only [items, listSoFar_eq]
      refine bind_agree (relabel_agree _ (same s room)) fun v t run => ih _ ?_
      have := remaining_relabel advances run
      omega

theorem ascendingItems_agree {next next' : Read Value} (container : String) (order : KeyOrder)
    (advances : Advances id next)
    (same : ∀ s : ReadState, s.input.remaining < octets → next s = next' s) (count : Nat)
    (acc : Array Value) (room : s.input.remaining < octets) :
    ascendingItems container order next count acc s =
      ascendingItems container order next' count acc s := by
  induction count generalizing s acc with
  | zero => rfl
  | succ count ih =>
      simp only [ascendingItems, listSoFar_eq]
      refine bind_agree (relabel_agree _ (same s room)) fun v t run => ?_
      have := remaining_relabel advances run
      refine bind_agree rfl fun _ u judged => ih _ ?_
      rw [← listSoFar_eq, listSoFar_eq_ok] at judged
      obtain ⟨-, rfl⟩ := ascend_eq_ok.mp judged
      omega

theorem ascendingEntries_agree {key key' val val' : Read Value} (container : String)
    (order : KeyOrder) (keys : Advances id key) (values : Advances id val)
    (sameKey : ∀ s : ReadState, s.input.remaining < octets → key s = key' s)
    (sameValue : ∀ s : ReadState, s.input.remaining < octets → val s = val' s) (count : Nat)
    (acc : Array Value) (room : s.input.remaining < octets) :
    ascendingEntries container order key val count acc s =
      ascendingEntries container order key' val' count acc s := by
  induction count generalizing s acc with
  | zero => rfl
  | succ count ih =>
      simp only [ascendingEntries, listSoFar_eq]
      refine bind_agree (relabel_agree _ (sameKey s room)) fun k t run => ?_
      have := remaining_relabel keys run
      refine bind_agree rfl fun _ u judged => ?_
      rw [← listSoFar_eq, listSoFar_eq_ok] at judged
      obtain ⟨-, rfl⟩ := ascend_eq_ok.mp judged
      refine bind_agree (relabel_agree _ (sameValue t (by omega))) fun v u run' => ih _ ?_
      have := remaining_relabel values run'
      omega

theorem keeping_length {old : Value} {count : Nat} (room : s.input.remaining ≤ octets)
    (run : keeping old (take Reading.length) s = .ok count t) : t.input.remaining < octets := by
  have taken := (take_length.mp (keeping_eq_ok.mp run)).2.passes.length_eq
  simp only [ByteReader.remaining, length_leBytes] at *
  omega

theorem byLayout_agree (advances : ∀ type, Advances id (f type)) (agree : Agree octets f g)
    (type : Ty) (old : Value) (layout : Layout) (room : s.input.remaining ≤ octets) :
    byLayout c lower f type old layout s = byLayout c lower g type old layout s := by
  cases layout with
  | seq item =>
      exact bind_agree rfl fun count t run =>
        items_agree (advances item) (agree item) count #[] (keeping_length room run)
  | set item order =>
      exact bind_agree rfl fun count t run => ascendingItems_agree type.name order (advances item)
        (agree item) count #[] (keeping_length room run)
  | map keyType valueType order =>
      exact bind_agree rfl fun count t run =>
        ascendingEntries_agree type.name order (advances keyType) (advances valueType)
          (agree keyType) (agree valueType) count #[] (keeping_length room run)
  | option item =>
      simp only [byLayout, keeping_eq]
      refine relabel_agree _ (bind_agree rfl fun octet t run => ?_)
      have taken := (take_octet.mp run).passes.length_eq
      have fewer : t.input.remaining < octets := by
        simp only [ByteReader.remaining, List.length_singleton] at *
        omega
      split
      · rfl
      · split
        · exact bind_agree (agree item t fewer) fun _ _ _ => rfl
        · rfl
  | _ => rfl

theorem eachField_agree {walk walk' : Walker} {types : List Ty} {olds : List Value}
    (advances : ∀ old ∈ olds, ∀ type, Advances Prod.fst (walk type old))
    (same : ∀ old ∈ olds, ∀ type (s : ReadState), s.input.remaining ≤ octets →
      walk type old s = walk' type old s) (room : s.input.remaining ≤ octets) :
    eachField walk types olds s = eachField walk' types olds s := by
  induction olds generalizing types s with
  | nil => cases types <;> rfl
  | cons old olds ih =>
      cases types with
      | nil => rfl
      | cons type types =>
          simp only [eachField_cons_eq]
          refine bind_agree
            (relabel_agree _ (same old List.mem_cons_self type s room)) fun v t run => ?_
          have := remaining_relabel (advances old List.mem_cons_self type) run
          have tail : eachField walk types olds t = eachField walk' types olds t :=
            ih (fun old member => advances old (List.mem_cons_of_mem _ member))
              (fun old member => same old (List.mem_cons_of_mem _ member)) (by omega)
          exact bind_agree (relabel_agree _ tail) fun _ _ _ => rfl

theorem inPlace_agree
    (deeper : ∀ walk, lower = some walk → ∀ type old, Advances Prod.fst (walk type old))
    (advances : ∀ type, Advances id (f type)) (agree : Agree octets f g) (type : Ty) (old : Value)
    (room : s.input.remaining ≤ octets) :
    inPlace c lower f type old s = inPlace c lower g type old s := by
  induction size : sizeOf old using Nat.strongRecOn generalizing type old s with
  | ind k ih =>
      cases found : c.registry.reader type with
      | error e => rw [inPlace_of_error found, inPlace_of_error found]
      | ok layout =>
          by_cases record : ∃ types olds, layout = .record types ∧ old = .list olds
          · obtain ⟨types, olds, rfl, rfl⟩ := record
            rw [inPlace_record_eq found, inPlace_record_eq found, asRecord_eq, asRecord_eq]
            refine bind_agree (relabel_agree _ (eachField_agree (fun old' inside type' =>
              (law_advances c).inPlace advances deeper type' old')
              (fun old' inside type' s room => ?_)
              room)) fun _ _ _ => rfl
            have smaller := List.sizeOf_lt_of_mem inside
            simp only [Value.list.sizeOf_spec] at size
            exact ih (sizeOf old') (by omega) type' old' room rfl
          · have apart := fun types olds one two => record ⟨types, olds, one, two⟩
            rw [inPlace_of_layout found apart, inPlace_of_layout found apart]
            exact byLayout_agree advances agree type old layout room

end Agreeing

/-! ## The number of octets does not show -/

theorem create_agree {walk walk' : Walker} {type : Ty} (octets : Nat)
    (same : ∀ old (s : ReadState), s.input.remaining ≤ octets → walk type old s = walk' type old s)
    (room : s.input.remaining ≤ octets) : create c walk type s = create c walk' type s := by
  refine bind_agree rfl fun blank t run => ?_
  obtain ⟨heap, _, rfl⟩ := make_eq_ok.mp run
  simp only [discarding_eq]
  exact relabel_agree _ (same blank _ room)

section Octets

variable (deeper : ∀ walk, lower = some walk → ∀ type old, Advances Prod.fst (walk type old))
include deeper

theorem value_of_room {octets octets' : Nat} (type : Ty) (old : Value)
    (room : s.input.remaining ≤ octets) (room' : s.input.remaining ≤ octets') :
    value c lower octets type old s = value c lower octets' type old s := by
  have advances := (law_advances c).freshAt deeper
  induction octets generalizing octets' type old s with
  | zero =>
      have none : Agree 0 (freshAt c lower 0) (freshAt c lower octets') := by simp [Agree]
      rw [value_eq, value_eq]
      exact inPlace_agree deeper (advances 0) none type old room
  | succ octets ih =>
      have agree : Agree s.input.remaining (freshAt c lower (octets + 1))
          (freshAt c lower octets') := by
        intro type' s' fewer
        obtain ⟨k, rfl⟩ : ∃ k, octets' = k + 1 := ⟨octets' - 1, by omega⟩
        exact create_agree s'.input.remaining
          (fun blank s'' room => ih type' blank (by omega) (by omega)) (Nat.le_refl _)
      rw [value_eq, value_eq]
      exact inPlace_agree deeper (advances _) agree type old (Nat.le_refl _)

end Octets

theorem valueAt_of_room {octets : Nat} (n : Nat) (type : Ty) (old : Value)
    (room : s.input.remaining ≤ octets) :
    valueAt c n type old s = value c (lowerAt c n) octets type old s := by
  rw [valueAt_eq]
  exact value_of_room (advances_lowerAt c n) type old (Nat.le_refl _) room

theorem valueAt_unfold (n : Nat) (type : Ty) (old : Value) :
    valueAt c n type old = inPlace c (lowerAt c n) (create c (valueAt c n)) type old := by
  funext s
  have deeper := advances_lowerAt c n
  have advances : ∀ type, Advances id (create c (valueAt c n) type) := fun type =>
    (law_advances c).create fun blank => advances_valueAt c n type blank
  have agree : Agree (s.input.remaining + 1) (create c (valueAt c n))
      (freshAt c (lowerAt c n) (s.input.remaining + 1)) := fun type' s' fewer =>
    create_agree s.input.remaining
      (fun blank s'' room => valueAt_of_room n type' blank room) (by omega)
  rw [valueAt_of_room n type old (Nat.le_succ _), value_eq]
  exact (inPlace_agree deeper advances agree type old (Nat.le_succ _)).symm

theorem valueAt_record {type : Ty} {types : List Ty}
    (found : c.registry.reader type = .ok (.record types)) (n : Nat) (olds : List Value) :
    valueAt c n type (.list olds) = asRecord (eachField (valueAt c n) types olds) := by
  have walk : inPlace c (lowerAt c n) (create c (valueAt c n)) = valueAt c n :=
    funext fun type => funext fun old => (valueAt_unfold n type old).symm
  rw [valueAt_unfold]
  funext s
  rw [inPlace_record_eq found, walk]

theorem valueAt_of_layout {type : Ty} {layout : Layout}
    (found : c.registry.reader type = .ok layout) (n : Nat) {old : Value}
    (apart : ∀ types olds, layout = .record types → old ≠ .list olds) :
    valueAt c n type old = byLayout c (lowerAt c n) (create c (valueAt c n)) type old layout := by
  rw [valueAt_unfold, inPlace_of_layout found apart]

end Read

end Chronicle
