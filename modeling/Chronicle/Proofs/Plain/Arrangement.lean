import Chronicle.Proofs.Plain.KeyOrder
import Chronicle.Proofs.Success
import Chronicle.Walk.Write

/-!
# Arrangements of plain data

A map may come with its entries in any order, at any depth, so one value has many
data.  At most one of them is accepted: by induction the accepted parts of two
arrangements are the same, so their maps have the same entries, and a list has
one order in which its keys strictly ascend.
-/

namespace Chronicle.Plain

open Success

/-! ## Accepted data -/

def Datum.Accepted (d : Datum) : Prop := ∃ key, d.key = .ok key

def After (previous : OrderKey) (d : Datum) : Prop :=
  ∃ key, d.key = .ok key ∧ previous.cmp key = .lt

def Before (e e' : Datum × Datum) : Prop := ∃ key, e.1.key = .ok key ∧ After key e'.1

theorem checkOrder_eq_ok {d : Datum} : checkOrder d = .ok () ↔ d.Accepted := by
  unfold checkOrder Datum.Accepted
  cases d.key with
  | ok key => simp [Except.map]
  | error e => simp [Except.map]

theorem keys_accepted {items : List Datum} :
    (∃ ks, keys items = .ok ks) ↔ ∀ d ∈ items, d.Accepted := by
  induction items with
  | nil => simp [keys]
  | cons d rest ih =>
      simp only [keys, except_bind_eq_ok, List.forall_mem_cons, ← ih]
      constructor
      · rintro ⟨_, key, accepted, ks, rest, -⟩
        exact ⟨⟨key, accepted⟩, ks, rest⟩
      · rintro ⟨⟨key, accepted⟩, ks, rest⟩
        exact ⟨_, key, accepted, ks, rest, rfl⟩

/-- A key is judged before its value and the entries after it are looked at. -/
theorem entryKeys_cons_eq_ok {last : Option OrderKey} {k v : Datum}
    {rest : List (Datum × Datum)} :
    (∃ ks, entryKeys last ((k, v) :: rest) = .ok ks) ↔
      ∃ key, k.key = .ok key ∧ mayFollow last key = true ∧ v.Accepted ∧
        ∃ ks, entryKeys (some key) rest = .ok ks := by
  simp only [entryKeys, except_bind_eq_ok]
  constructor
  · rintro ⟨ks, key, judged, run⟩
    by_cases follows : mayFollow last key = true
    · simp only [follows, ↓reduceIte, except_bind_eq_ok] at run
      obtain ⟨value, accepted, ks', run, -⟩ := run
      exact ⟨key, judged, follows, ⟨value, accepted⟩, ks', run⟩
    · simp [follows] at run
  · rintro ⟨key, judged, follows, ⟨value, accepted⟩, ks, run⟩
    refine ⟨.seq [key, value] :: ks, key, judged, ?_⟩
    simp only [follows, ↓reduceIte, except_bind_eq_ok]
    exact ⟨value, accepted, ks, run, rfl⟩

/-- The keys and values of the entries are accepted, and each key comes after all
keys before it. -/
structure Ascending (entries : List (Datum × Datum)) : Prop where
  accepted : ∀ e ∈ entries, e.1.Accepted ∧ e.2.Accepted
  pairwise : entries.Pairwise Before

theorem entryKeys_eq_ok {last : Option OrderKey} {entries : List (Datum × Datum)} :
    (∃ ks, entryKeys last entries = .ok ks) ↔
      Ascending entries ∧ ∀ previous ∈ last, ∀ e ∈ entries, After previous e.1 := by
  induction entries generalizing last with
  | nil => exact ⟨fun _ => ⟨⟨by simp, .nil⟩, by simp⟩, fun _ => ⟨[], rfl⟩⟩
  | cons e rest ih =>
      obtain ⟨k, v⟩ := e
      rw [entryKeys_cons_eq_ok]
      constructor
      · rintro ⟨key, judged, follows, value, run⟩
        obtain ⟨⟨accepted, pairwise⟩, behind⟩ := ih.mp run
        have behind := behind key rfl
        refine ⟨⟨List.forall_mem_cons.mpr ⟨⟨⟨key, judged⟩, value⟩, accepted⟩,
          .cons (fun e member => ⟨key, judged, behind e member⟩) pairwise⟩, ?_⟩
        rintro previous ⟨⟩
        have before : previous.cmp key = .lt := of_decide_eq_true follows
        refine List.forall_mem_cons.mpr ⟨⟨key, judged, before⟩, fun e member => ?_⟩
        obtain ⟨key', judged', before'⟩ := behind e member
        exact ⟨key', judged', OrderKey.cmp_trans _ _ before before'⟩
      · rintro ⟨⟨accepted, pairwise⟩, behind⟩
        obtain ⟨⟨⟨key, judged⟩, value⟩, accepted⟩ := List.forall_mem_cons.mp accepted
        obtain ⟨before, pairwise⟩ := List.pairwise_cons.mp pairwise
        refine ⟨key, judged, ?_, value, ih.mpr ⟨⟨accepted, pairwise⟩, ?_⟩⟩
        · cases last with
          | none => rfl
          | some previous =>
              obtain ⟨key', judged', before⟩ := behind previous rfl _ List.mem_cons_self
              rw [judged] at judged'
              obtain rfl := Except.ok.inj judged'
              exact decide_eq_true before
        · rintro _ ⟨⟩ e member
          obtain ⟨key', judged', after⟩ := before e member
          rw [judged] at judged'
          obtain rfl := Except.ok.inj judged'
          exact after

namespace Datum

variable {v : Datum} {items : List Datum}

theorem accepted_iff_of_key {d v : Datum} {f : OrderKey → OrderKey}
    (key : d.key = (do return f (← v.key))) : d.Accepted ↔ v.Accepted := by
  unfold Accepted
  simp only [key, except_bind_eq_ok]
  constructor
  · rintro ⟨_, inner, accepted, -⟩
    exact ⟨inner, accepted⟩
  · rintro ⟨inner, accepted⟩
    exact ⟨_, inner, accepted, rfl⟩

theorem accepted_iff_of_keys {d : Datum} {f : List OrderKey → OrderKey}
    (key : d.key = (do return f (← keys items))) : d.Accepted ↔ ∀ d ∈ items, d.Accepted := by
  rw [← keys_accepted]
  unfold Accepted
  simp only [key, except_bind_eq_ok]
  constructor
  · rintro ⟨_, ks, accepted, -⟩
    exact ⟨ks, accepted⟩
  · rintro ⟨ks, accepted⟩
    exact ⟨_, ks, accepted, rfl⟩

theorem accepted_present : (present v).Accepted ↔ v.Accepted :=
  accepted_iff_of_key (f := .variant 1) rfl

theorem accepted_wrapper : (wrapper v).Accepted ↔ v.Accepted := Iff.rfl

theorem accepted_wrapperVariant (index : Nat) :
    (wrapperVariant index v).Accepted ↔ v.Accepted :=
  accepted_iff_of_key (f := .variant index) rfl

theorem accepted_sequence (shape : SequenceShape) :
    (sequence shape items).Accepted ↔ ∀ d ∈ items, d.Accepted :=
  accepted_iff_of_keys (f := .seq) rfl

theorem accepted_variant (shape : VariantShape) (index : Nat) :
    (variant shape index items).Accepted ↔ ∀ d ∈ items, d.Accepted :=
  accepted_iff_of_keys (f := fun ks => .variant index (.seq ks)) rfl

theorem accepted_map {entries : List (Datum × Datum)} :
    (map entries).Accepted ↔ Ascending entries := by
  have run : (∃ ks, entryKeys none entries = .ok ks) ↔ Ascending entries := by
    rw [entryKeys_eq_ok]
    simp
  rw [← run]
  unfold Accepted
  simp only [key, except_bind_eq_ok]
  constructor
  · rintro ⟨_, ks, accepted, -⟩
    exact ⟨ks, accepted⟩
  · rintro ⟨ks, accepted⟩
    exact ⟨_, ks, accepted, rfl⟩

end Datum

/-! ## Arrangements -/

mutual

/-- Data that differ at most in the order in which their maps yield their
entries, at any depth. -/
inductive Rearranged : Datum → Datum → Prop
  | same (d : Datum) : Rearranged d d
  | present {v v' : Datum} : Rearranged v v' → Rearranged (.present v) (.present v')
  | wrapper {v v' : Datum} : Rearranged v v' → Rearranged (.wrapper v) (.wrapper v')
  | wrapperVariant {v v' : Datum} (index : Nat) : Rearranged v v' →
      Rearranged (.wrapperVariant index v) (.wrapperVariant index v')
  | sequence {items items' : List Datum} (shape : SequenceShape) : RearrangedAll items items' →
      Rearranged (.sequence shape items) (.sequence shape items')
  | variant {items items' : List Datum} (shape : VariantShape) (index : Nat) :
      RearrangedAll items items' →
        Rearranged (.variant shape index items) (.variant shape index items')
  | map {entries entries' entries'' : List (Datum × Datum)} :
      RearrangedEntries entries entries' → entries'.Perm entries'' →
        Rearranged (.map entries) (.map entries'')
  | keylessMap {v v' : Datum} : Rearranged v v' → Rearranged (.keylessMap v) (.keylessMap v')

inductive RearrangedAll : List Datum → List Datum → Prop
  | nil : RearrangedAll [] []
  | cons {d d' : Datum} {rest rest' : List Datum} : Rearranged d d' → RearrangedAll rest rest' →
      RearrangedAll (d :: rest) (d' :: rest')

inductive RearrangedEntries : List (Datum × Datum) → List (Datum × Datum) → Prop
  | nil : RearrangedEntries [] []
  | cons {k k' v v' : Datum} {rest rest' : List (Datum × Datum)} : Rearranged k k' →
      Rearranged v v' → RearrangedEntries rest rest' →
        RearrangedEntries ((k, v) :: rest) ((k', v') :: rest')

end

theorem Ascending.eq_of_perm {entries entries' : List (Datum × Datum)}
    (ascending : Ascending entries) (ascending' : Ascending entries')
    (perm : entries.Perm entries') : entries = entries' := by
  refine perm.eq_of_pairwise ?_ ascending.pairwise ascending'.pairwise
  rintro e e' - - ⟨key, judged, key', judged', before⟩ ⟨other', same', other, same, after⟩
  obtain rfl := Except.ok.inj (judged.symm.trans same)
  obtain rfl := Except.ok.inj (judged'.symm.trans same')
  exact absurd after (Std.OrientedCmp.not_lt_of_lt before)

mutual

theorem Rearranged.eq {d d' : Datum} (rearranged : Rearranged d d') (accepted : d.Accepted)
    (accepted' : d'.Accepted) : d = d' := by
  cases rearranged with
  | same => rfl
  | present inner =>
      rw [inner.eq (Datum.accepted_present.mp accepted) (Datum.accepted_present.mp accepted')]
  | wrapper inner =>
      rw [inner.eq (Datum.accepted_wrapper.mp accepted) (Datum.accepted_wrapper.mp accepted')]
  | wrapperVariant index inner =>
      rw [inner.eq ((Datum.accepted_wrapperVariant index).mp accepted)
        ((Datum.accepted_wrapperVariant index).mp accepted')]
  | sequence shape inner =>
      rw [inner.eq ((Datum.accepted_sequence shape).mp accepted)
        ((Datum.accepted_sequence shape).mp accepted')]
  | variant shape index inner =>
      rw [inner.eq ((Datum.accepted_variant shape index).mp accepted)
        ((Datum.accepted_variant shape index).mp accepted')]
  | map inner perm =>
      have ascending := Datum.accepted_map.mp accepted
      have ascending' := Datum.accepted_map.mp accepted'
      have same := inner.eq ascending.accepted
        fun e member => ascending'.accepted e (perm.mem_iff.mp member)
      subst same
      rw [ascending.eq_of_perm ascending' perm]
  | keylessMap inner =>
      obtain ⟨key, refused⟩ := accepted
      cases refused

theorem RearrangedAll.eq {items items' : List Datum} (rearranged : RearrangedAll items items')
    (accepted : ∀ d ∈ items, d.Accepted) (accepted' : ∀ d ∈ items', d.Accepted) :
    items = items' := by
  cases rearranged with
  | nil => rfl
  | cons first rest =>
      obtain ⟨head, tail⟩ := List.forall_mem_cons.mp accepted
      obtain ⟨head', tail'⟩ := List.forall_mem_cons.mp accepted'
      rw [first.eq head head', rest.eq tail tail']

theorem RearrangedEntries.eq {entries entries' : List (Datum × Datum)}
    (rearranged : RearrangedEntries entries entries')
    (accepted : ∀ e ∈ entries, e.1.Accepted ∧ e.2.Accepted)
    (accepted' : ∀ e ∈ entries', e.1.Accepted ∧ e.2.Accepted) : entries = entries' := by
  cases rearranged with
  | nil => rfl
  | cons key value rest =>
      obtain ⟨head, tail⟩ := List.forall_mem_cons.mp accepted
      obtain ⟨head', tail'⟩ := List.forall_mem_cons.mp accepted'
      rw [key.eq head.1 head'.1, value.eq head.2 head'.2, rest.eq tail tail']

end

/-! ## One arrangement is stored -/

theorem accepted_of_packed {type : Ty} {format : PackedFormat} {d : Datum} {s t : WriteState}
    (written : Write.packed type format d s = .ok () t) : checkOrder d = .ok () := by
  unfold Write.packed at written
  cases judged : checkOrder d with
  | ok u => rfl
  | error e => simp [judged, throw_eq_ok] at written

/-- Of all the orders in which the maps of a value may yield their entries, at
most one is accepted, so there is one datum that can be written for the value and
one outcome of writing it. -/
theorem one_arrangement_stored {d d' : Datum} (rearranged : Rearranged d d') :
    (checkOrder d = .ok () → checkOrder d' = .ok () → d = d') ∧
      ∀ (type : Ty) (format : PackedFormat) (s t t' : WriteState),
        Write.packed type format d s = .ok () t → Write.packed type format d' s = .ok () t' →
          d = d' ∧ t = t' := by
  have one : checkOrder d = .ok () → checkOrder d' = .ok () → d = d' := fun accepted accepted' =>
    rearranged.eq (checkOrder_eq_ok.mp accepted) (checkOrder_eq_ok.mp accepted')
  refine ⟨one, fun type format s t t' written written' => ?_⟩
  obtain rfl := one (accepted_of_packed written) (accepted_of_packed written')
  rw [written] at written'
  injection written' with _ same
  exact ⟨rfl, same⟩

def mapOfMaps (entries : List (Datum × Datum)) : Datum :=
  .map [(.map entries, .bool true), (.map [(.unsigned .w8 2, .unit)], .bool false)]

def twoEntries : List (Datum × Datum) := [(.unsigned .w8 1, .unit), (.unsigned .w16 2, .unit)]

theorem one_arrangement_stored_swapped :
    Rearranged (mapOfMaps twoEntries) (mapOfMaps twoEntries.reverse) ∧
      checkOrder (mapOfMaps twoEntries) = .ok () ∧
        ¬checkOrder (mapOfMaps twoEntries.reverse) = .ok () := by
  have key : Rearranged (.map twoEntries) (.map twoEntries.reverse) :=
    .map (.cons (.same _) (.same _) (.cons (.same _) (.same _) .nil)) (List.reverse_perm _).symm
  have swapped : Rearranged (mapOfMaps twoEntries) (mapOfMaps twoEntries.reverse) :=
    .map (.cons key (.same _) (.cons (.same _) (.same _) .nil)) (.refl _)
  refine ⟨swapped, rfl, fun accepted => ?_⟩
  have same := (one_arrangement_stored swapped).1 rfl accepted
  simp [mapOfMaps, twoEntries] at same

end Chronicle.Plain
