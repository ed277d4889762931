import Chronicle.Proofs.Plain.Arrangement
import Chronicle.Proofs.Plain.FirstOffence
import Chronicle.Proofs.Plain.Schema

/-!
# Order keys follow the derived order

The order key of a term forgets its schema: integers of all widths become one
kind of key, a record of one field is its field, and a map is a run of pairs.  Two
terms of one schema still compare as their keys do.  So the keys of a map that
holds its entries in order ascend, and no term is refused.
-/

namespace Chronicle.Plain

variable {ds : Declarations}

/-! ## Numbers and letters -/

theorem compareOfLessAndEq_congr {α β : Type} [LT α] [DecidableLT α] [DecidableEq α] [LT β]
    [DecidableLT β] [DecidableEq β] {a b : α} {x y : β} (less : x < y ↔ a < b)
    (equal : x = y ↔ a = b) : compareOfLessAndEq x y = compareOfLessAndEq a b := by
  simp only [compareOfLessAndEq, less, equal]

theorem compare_toNat_of_nonneg {a b : Int} (ha : 0 ≤ a) (hb : 0 ≤ b) :
    compare a.toNat b.toNat = compare a b :=
  compareOfLessAndEq_congr (by omega) (by omega)

theorem compare_natCast (a b : Nat) : compare (a : Int) b = compare a b :=
  compareOfLessAndEq_congr Int.ofNat_lt Int.ofNat_inj

theorem compare_charToNat (c c' : Char) : compare c.toNat c'.toNat = compare c c' :=
  compareOfLessAndEq_congr Iff.rfl Char.toNat_inj

theorem then_congr {o x y : Ordering} (second : o = .eq → x = y) : o.then x = o.then y := by
  cases o with
  | eq => exact second rfl
  | lt | gt => rfl

/-! ## Places of variants -/

namespace Enumeration

variable {e : Enumeration} {d d' : Int} {place place' : Nat} {fields fields' : Fields}

theorem getElem?_of_find? (found : e.find? d = some (place, fields)) :
    e.variants[place]? = some (d, fields) := by
  obtain ⟨⟨⟨d', f⟩, i⟩, first, same⟩ := Option.map_eq_some_iff.mp found
  obtain ⟨rfl, rfl⟩ := Prod.mk.inj same
  have holds := List.find?_some first
  obtain rfl : d' = d := of_decide_eq_true holds
  exact List.mk_mem_zipIdx_iff_getElem?.mp (List.mem_of_find?_eq_some first)

theorem lt_of_place_lt (found : e.find? d = some (place, fields))
    (found' : e.find? d' = some (place', fields')) (before : place < place') : d < d' := by
  obtain ⟨bound, here⟩ := List.getElem?_eq_some_iff.mp (getElem?_of_find? found)
  obtain ⟨bound', there⟩ := List.getElem?_eq_some_iff.mp (getElem?_of_find? found')
  have less := List.pairwise_iff_getElem.mp e.ascending place place' bound bound' before
  rwa [here, there] at less

theorem fields_eq (found : e.find? d = some (place, fields))
    (found' : e.find? d' = some (place', fields')) (same : place = place') : fields = fields' := by
  subst same
  have one := (getElem?_of_find? found).symm.trans (getElem?_of_find? found')
  exact congrArg Prod.snd (Option.some.inj one)

theorem compare_place (found : e.find? d = some (place, fields))
    (found' : e.find? d' = some (place', fields')) : compare place place' = compare d d' := by
  have equal : place = place' → d = d' := by
    rintro rfl
    have same := (getElem?_of_find? found).symm.trans (getElem?_of_find? found')
    exact congrArg Prod.fst (Option.some.inj same)
  refine compareOfLessAndEq_congr ⟨lt_of_place_lt found found', fun less => ?_⟩
    ⟨equal, fun same => ?_⟩
  · rcases Nat.lt_trichotomy place place' with before | same | behind
    · exact before
    · exact absurd (equal same) (Int.ne_of_lt less)
    · exact absurd (lt_of_place_lt found' found behind) (Int.lt_asymm less)
  · subst same
    rw [found] at found'
    exact congrArg Prod.fst (Option.some.inj found')

end Enumeration

/-! ## Keys of parts -/

theorem orderKeys_eq_map (items : List Datum) : orderKeys items = items.map Datum.orderKey := by
  induction items with
  | nil => rfl
  | cons d rest ih => rw [orderKeys, ih, List.map_cons]

def Fields.key : Fields → List OrderKey → OrderKey
  | .unit, _ => .unit
  | .newtype _, ks => ks.headD .unit
  | .tuple _, ks | .record _, ks => .seq ks

theorem Fields.orderKey_recordDatum (fields : Fields) (parts : List Datum) :
    (fields.recordDatum parts).orderKey = fields.key (orderKeys parts) := by
  cases fields with
  | newtype item => cases parts <;> rfl
  | _ => rfl

theorem Fields.orderKey_variantDatum (fields : Fields) (index : Nat) (parts : List Datum) :
    (fields.variantDatum index parts).orderKey = .variant index (fields.key (orderKeys parts)) := by
  cases fields with
  | newtype item => cases parts <;> rfl
  | _ => rfl

theorem Fields.cmp_key {fields : Fields} {ks ks' : List OrderKey}
    (length : ks.length = fields.types.length) (length' : ks'.length = fields.types.length) :
    (fields.key ks).cmp (fields.key ks') = OrderKey.cmpAll ks ks' := by
  cases fields with
  | unit =>
      obtain rfl := List.length_eq_zero_iff.mp length
      obtain rfl := List.length_eq_zero_iff.mp length'
      rfl
  | newtype item =>
      obtain ⟨k, rfl⟩ := List.length_eq_one_iff.mp length
      obtain ⟨k', rfl⟩ := List.length_eq_one_iff.mp length'
      exact Ordering.then_eq.symm
  | tuple items | record items => rfl

/-! ## Keys of terms -/

/-- A term compares with all terms of the schema as their keys do. -/
def Agrees (ds : Declarations) (t : Schema) (a : Term) : Prop :=
  ∀ b, HasSchema ds t b → (a.datum ds t).orderKey.cmp (b.datum ds t).orderKey = a.cmp b

variable {t k : Schema} {ts ts' : List Schema} {as bs : List Term}

/-- Lists of terms compare as the lists of their keys do.  Their schemas are the
same as far as both go. -/
theorem cmpAll_itemData (alike : ts <+: ts' ∨ ts' <+: ts) (length : as.length = ts.length)
    (length' : bs.length = ts'.length) (agree : ∀ p ∈ ts.zip as, Agrees ds p.1 p.2)
    (typed : ∀ p ∈ ts'.zip bs, HasSchema ds p.1 p.2) :
    OrderKey.cmpAll (orderKeys (Term.itemData ds ts as)) (orderKeys (Term.itemData ds ts' bs)) =
      Term.cmpAll as bs := by
  induction as generalizing ts ts' bs with
  | nil =>
      obtain rfl := List.length_eq_zero_iff.mp length.symm
      cases bs with
      | nil =>
          obtain rfl := List.length_eq_zero_iff.mp length'.symm
          rfl
      | cons b bs =>
          obtain ⟨t, ts', rfl⟩ := List.exists_cons_of_length_eq_add_one length'.symm
          rfl
  | cons a as ih =>
      obtain ⟨t, ts, rfl⟩ := List.exists_cons_of_length_eq_add_one length.symm
      cases bs with
      | nil =>
          obtain rfl := List.length_eq_zero_iff.mp length'.symm
          rfl
      | cons b bs =>
          obtain ⟨t', ts', rfl⟩ := List.exists_cons_of_length_eq_add_one length'.symm
          obtain ⟨rfl, rest⟩ : t = t' ∧ (ts <+: ts' ∨ ts' <+: ts) := by
            rcases alike with front | front <;> obtain ⟨rfl, rest⟩ := List.cons_prefix_cons.mp front
            · exact ⟨rfl, .inl rest⟩
            · exact ⟨rfl, .inr rest⟩
          simp only [List.zip_cons_cons, List.forall_mem_cons] at agree typed
          simp only [List.length_cons, Nat.add_right_cancel_iff] at length length'
          simp only [Term.itemData, orderKeys, OrderKey.cmpAll, Term.cmpAll, agree.1 b typed.1,
            ih rest length length' agree.2 typed.2]

theorem forall_zip_replicate {P : Schema → Term → Prop} (each : ∀ a ∈ as, P t a) :
    ∀ p ∈ (List.replicate as.length t).zip as, P p.1 p.2 := by
  rintro ⟨t', a⟩ member
  obtain ⟨schema, inside⟩ := List.of_mem_zip member
  obtain rfl := List.eq_of_mem_replicate schema
  exact each a inside

theorem cmpAll_itemData_replicate (agree : ∀ a ∈ as, Agrees ds t a)
    (typed : ∀ b ∈ bs, HasSchema ds t b) :
    OrderKey.cmpAll (orderKeys (Term.itemData ds (.replicate as.length t) as))
        (orderKeys (Term.itemData ds (.replicate bs.length t) bs)) = Term.cmpAll as bs := by
  refine cmpAll_itemData ?_ (by simp) (by simp) (forall_zip_replicate agree)
    (forall_zip_replicate typed)
  rcases Nat.le_total as.length bs.length with le | le
  · exact .inl (List.prefix_replicate_iff.mpr ⟨by simpa using le, by simp⟩)
  · exact .inr (List.prefix_replicate_iff.mpr ⟨by simpa using le, by simp⟩)

theorem cmpAll_entryData {as bs : List (Term × Term)} (keys : ∀ e ∈ as, Agrees ds k e.1)
    (values : ∀ e ∈ as, Agrees ds t e.2) (keys' : ∀ e ∈ bs, HasSchema ds k e.1)
    (values' : ∀ e ∈ bs, HasSchema ds t e.2) :
    OrderKey.cmpAll (entryOrderKeys (Term.entryData ds k t as))
        (entryOrderKeys (Term.entryData ds k t bs)) = Term.cmpEntries as bs := by
  induction as generalizing bs with
  | nil => cases bs <;> rfl
  | cons a as ih =>
      cases bs with
      | nil => rfl
      | cons b bs =>
          obtain ⟨key, value⟩ := a
          obtain ⟨key', value'⟩ := b
          rw [List.forall_mem_cons] at keys values keys' values'
          simp only [Term.entryData, entryOrderKeys, OrderKey.cmpAll, OrderKey.cmp, Term.cmpEntries,
            keys.1 key' keys'.1, values.1 value' values'.1, ih keys.2 values.2 keys'.2 values'.2,
            Ordering.then_eq]

theorem length_orderKeys_itemData (length : as.length = ts.length) :
    (orderKeys (Term.itemData ds ts as)).length = ts.length := by
  rw [orderKeys_eq_map, Term.itemData_eq_map]
  simp [length]

theorem cmp_key_itemData {fields : Fields} (length : as.length = fields.types.length)
    (length' : bs.length = fields.types.length)
    (agree : ∀ p ∈ fields.types.zip as, Agrees ds p.1 p.2)
    (typed : ∀ p ∈ fields.types.zip bs, HasSchema ds p.1 p.2) :
    (fields.key (orderKeys (Term.itemData ds fields.types as))).cmp
        (fields.key (orderKeys (Term.itemData ds fields.types bs))) = Term.cmpAll as bs := by
  rw [Fields.cmp_key (length_orderKeys_itemData length) (length_orderKeys_itemData length')]
  exact cmpAll_itemData (.inl (List.prefix_refl _)) length length' agree typed

theorem agrees_unsigned {width : IntWidth} {n : Int} (least : 0 ≤ n) :
    Agrees ds (.unsigned width) (.int n) := by
  intro b typed
  cases typed with
  | unsigned least' _ =>
      cases width with
      | w128 => exact compare_toNat_of_nonneg least least'
      | _ => exact (compare_natCast _ _).trans (compare_toNat_of_nonneg least least')

theorem HasSchema.agrees {a : Term} (typed : HasSchema ds t a) : Agrees ds t a := by
  induction typed with
  | unsigned least _ => exact agrees_unsigned least
  | char c =>
      rintro _ ⟨⟩
      exact (compare_natCast _ _).trans (compare_charToNat _ _)
  | present _ ih =>
      intro b typed
      cases typed with
      | absent => rfl
      | present item => exact ih _ item
  | tuple length _ ih =>
      intro b typed
      cases typed with
      | tuple length' items =>
          exact cmpAll_itemData (.inl (List.prefix_refl _)) length length' ih items
  | list _ ih =>
      intro b typed
      cases typed with
      | list items => exact cmpAll_itemData_replicate ih items
  | set _ _ ih =>
      intro b typed
      cases typed with
      | set items _ => exact cmpAll_itemData_replicate ih items
  | map _ _ _ keys values =>
      intro b typed
      cases typed with
      | map keys' values' _ => exact cmpAll_entryData keys values keys' values'
  | @record name fields items declared length _ ih =>
      intro b typed
      cases typed with
      | record declared' length' items' =>
          rw [declared] at declared'
          cases declared'
          simp only [Term.datum, declared, Fields.orderKey_recordDatum]
          exact cmp_key_itemData length length' ih items'
      | variant declared' =>
          rw [declared] at declared'
          cases declared'
  | @variant name e discriminant place fields items declared found length _ ih =>
      intro b typed
      cases typed with
      | record declared' =>
          rw [declared] at declared'
          cases declared'
      | variant declared' found' length' items' =>
          rw [declared] at declared'
          cases declared'
          simp only [Term.datum, declared, found, found', Fields.orderKey_variantDatum,
            OrderKey.cmp, Term.cmp, ← Enumeration.compare_place found found']
          refine then_congr fun same => ?_
          obtain rfl := Enumeration.fields_eq found found' (Nat.compare_eq_eq.mp same)
          exact cmp_key_itemData length length' ih items'
  | _ => rintro _ ⟨⟩ <;> rfl

/-! ## Terms are accepted -/

theorem accepted_itemData (inside : ∀ p ∈ ts.zip as, (p.2.datum ds p.1).Accepted) :
    ∀ d ∈ Term.itemData ds ts as, d.Accepted := by
  rw [Term.itemData_eq_map]
  exact List.forall_mem_map.mpr inside

theorem accepted_itemData_replicate (inside : ∀ a ∈ as, (a.datum ds t).Accepted) :
    ∀ d ∈ Term.itemData ds (.replicate as.length t) as, d.Accepted :=
  accepted_itemData (forall_zip_replicate (P := fun t a => (a.datum ds t).Accepted) inside)

theorem accepted_headD {parts : List Datum} (inside : ∀ d ∈ parts, d.Accepted) :
    (parts.headD .unit).Accepted := by
  cases parts with
  | nil => exact ⟨.unit, rfl⟩
  | cons d rest => exact inside d List.mem_cons_self

namespace Fields

variable {fields : Fields} {parts : List Datum}

theorem accepted_recordDatum (inside : ∀ d ∈ parts, d.Accepted) :
    (fields.recordDatum parts).Accepted := by
  cases fields with
  | unit => exact ⟨.unit, rfl⟩
  | newtype item => exact Datum.accepted_wrapper.mpr (accepted_headD inside)
  | tuple items | record items => exact (Datum.accepted_sequence _).mpr inside

theorem accepted_variantDatum (index : Nat) (inside : ∀ d ∈ parts, d.Accepted) :
    (fields.variantDatum index parts).Accepted := by
  cases fields with
  | unit => exact ⟨.variant index .unit, rfl⟩
  | newtype item => exact (Datum.accepted_wrapperVariant index).mpr (accepted_headD inside)
  | tuple items | record items => exact (Datum.accepted_variant _ index).mpr inside

end Fields

theorem ascending_entryData {entries : List (Term × Term)}
    (keys : ∀ e ∈ entries, HasSchema ds k e.1)
    (inside : ∀ e ∈ entries, (e.1.datum ds k).Accepted)
    (inside' : ∀ e ∈ entries, (e.2.datum ds t).Accepted)
    (ascending : entries.Pairwise fun a b => a.1.cmp b.1 = .lt) :
    Ascending (Term.entryData ds k t entries) := by
  rw [Term.entryData_eq_map]
  refine ⟨List.forall_mem_map.mpr fun e member => ⟨inside e member, inside' e member⟩, ?_⟩
  refine List.pairwise_map.mpr (ascending.imp_of_mem fun {a b} here there less => ?_)
  obtain ⟨key, judged⟩ := inside a here
  obtain ⟨key', judged'⟩ := inside b there
  refine ⟨key, judged, key', judged', ?_⟩
  rw [Datum.eq_orderKey judged, Datum.eq_orderKey judged']
  exact ((keys a here).agrees b.1 (keys b there)).trans less

theorem HasSchema.accepted {a : Term} (typed : HasSchema ds t a) : (a.datum ds t).Accepted := by
  induction typed with
  | present _ ih => exact Datum.accepted_present.mpr ih
  | tuple _ _ ih => exact (Datum.accepted_sequence _).mpr (accepted_itemData ih)
  | list _ ih => exact (Datum.accepted_sequence _).mpr (accepted_itemData_replicate ih)
  | set _ _ ih => exact (Datum.accepted_sequence _).mpr (accepted_itemData_replicate ih)
  | map typed _ ascending keys values =>
      exact Datum.accepted_map.mpr (ascending_entryData typed keys values ascending)
  | record declared _ _ ih =>
      simp only [Term.datum, declared]
      exact Fields.accepted_recordDatum (accepted_itemData ih)
  | variant declared found _ _ ih =>
      simp only [Term.datum, declared, found]
      exact Fields.accepted_variantDatum _ (accepted_itemData ih)
  | @unsigned width n _ _ => cases width <;> exact ⟨_, rfl⟩
  | _ => exact ⟨_, rfl⟩

/-! ## The derived order -/

structure Inhabitant (ds : Declarations) (t : Schema) where
  term : Term
  typed : HasSchema ds t term

def Inhabitant.datum (a : Inhabitant ds t) : Datum := a.term.datum ds t

/-- Every value of a plain type is accepted and has an order key, and the keys of
two values of one type compare as the values do. -/
theorem cmp_key_eq_cmp (a b : Inhabitant ds t) :
    checkOrder a.datum = .ok () ∧ ∃ key key', a.datum.key = .ok key ∧ b.datum.key = .ok key' ∧
      key.cmp key' = a.term.cmp b.term := by
  obtain ⟨key, judged⟩ := a.typed.accepted
  obtain ⟨key', judged'⟩ := b.typed.accepted
  refine ⟨checkOrder_eq_ok.mpr ⟨key, judged⟩, key, key', judged, judged', ?_⟩
  rw [Datum.eq_orderKey judged, Datum.eq_orderKey judged']
  exact a.typed.agrees b.term b.typed

end Chronicle.Plain
