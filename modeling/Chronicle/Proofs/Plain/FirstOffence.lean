import Chronicle.Proofs.Plain.KeyOrder
import Mathlib.Data.List.Chain

/-!
# The first offence in a datum

Taking a datum apart is a run of events.  A value may refuse, a map may yield a
value while it holds no key, and it may yield a key that does not come after all
keys before it.  The check stops at the first event that is an offence, although
it compares each key with the last one only, and a datum passes if every part of
it is regular.
-/

namespace Chronicle.Plain

/-! ## Order keys without a judgement -/

mutual

def Datum.orderKey : Datum → OrderKey
  | .unit | .unitRecord => .unit
  | .bool b => .bool b
  | .signed _ n => .int n
  | .unsigned .w128 n => .uint n
  | .unsigned _ n => .int n
  | .single bits => .float (floatKey (widen bits))
  | .double bits => .float (floatKey bits)
  | .char c => .int c.toNat
  | .text s => .text s
  | .bytes bs => .bytes bs
  | .absent => .variant 0 .unit
  | .present value => .variant 1 value.orderKey
  | .wrapper value => value.orderKey
  | .unitVariant index => .variant index .unit
  | .wrapperVariant index value => .variant index value.orderKey
  | .sequence _ items => .seq (orderKeys items)
  | .variant _ index items => .variant index (.seq (orderKeys items))
  | .map entries => .seq (entryOrderKeys entries)
  | .keylessMap _ => .seq []
  | .irregularMap calls => .seq (callOrderKeys none calls)
  | .refusal _ => .unit

def orderKeys : List Datum → List OrderKey
  | [] => []
  | d :: rest => d.orderKey :: orderKeys rest

def entryOrderKeys : List (Datum × Datum) → List OrderKey
  | [] => []
  | (k, v) :: rest => .seq [k.orderKey, v.orderKey] :: entryOrderKeys rest

def callOrderKeys (held : Option OrderKey) : List (MapCall × Datum) → List OrderKey
  | [] => []
  | (.key, k) :: rest => callOrderKeys (some k.orderKey) rest
  | (.value, v) :: rest =>
      (held.toList.map fun key => .seq [key, v.orderKey]) ++ callOrderKeys none rest

end

/-! ## Events -/

inductive Event where
  /-- A value refuses to be taken apart. -/
  | refusal (reason : String)
  /-- A map yields a value and holds no key for it. -/
  | bareValue
  /-- A map yields a key behind those that it yielded earlier. -/
  | mapKey (earlier : List OrderKey) (key : OrderKey)
  deriving Repr

def Event.offence? : Event → Option OrderError
  | .refusal reason => some (.refused reason)
  | .bareValue => some (.refused "map value without a key")
  | .mapKey earlier key =>
      if earlier.all fun previous => previous.cmp key = .lt then none else some .unordered

mutual

/-- The events in the order in which a datum is taken apart.  A key is taken apart
before it is compared, and compared before its value is taken apart. -/
def Datum.events : Datum → List Event
  | .present value | .wrapper value | .wrapperVariant _ value => value.events
  | .sequence _ items | .variant _ _ items => itemEvents items
  | .map entries => entryEvents [] entries
  | .keylessMap value => .bareValue :: value.events
  | .irregularMap calls => callEvents false [] calls
  | .refusal reason => [.refusal reason]
  | _ => []

def itemEvents : List Datum → List Event
  | [] => []
  | d :: rest => d.events ++ itemEvents rest

def entryEvents (earlier : List OrderKey) : List (Datum × Datum) → List Event
  | [] => []
  | (k, v) :: rest =>
      k.events ++
        .mapKey earlier k.orderKey :: (v.events ++ entryEvents (earlier ++ [k.orderKey]) rest)

def callEvents (held : Bool) (earlier : List OrderKey) : List (MapCall × Datum) → List Event
  | [] => []
  | (.key, k) :: rest =>
      k.events ++ .mapKey earlier k.orderKey :: callEvents true (earlier ++ [k.orderKey]) rest
  | (.value, v) :: rest =>
      (if held then [] else [.bareValue]) ++ (v.events ++ callEvents false earlier rest)

end

def firstOffence? (events : List Event) : Option OrderError := events.findSome? Event.offence?

theorem firstOffence?_cons (event : Event) (rest : List Event) :
    firstOffence? (event :: rest) = event.offence?.or (firstOffence? rest) := by
  rw [firstOffence?, List.findSome?_cons]
  cases event.offence? <;> rfl

theorem firstOffence?_append (front rest : List Event) :
    firstOffence? (front ++ rest) = (firstOffence? front).or (firstOffence? rest) :=
  List.findSome?_append

/-! ## Parts -/

def entryCalls (entries : List (Datum × Datum)) : List (MapCall × Datum) :=
  entries.flatMap fun e => [(.key, e.1), (.value, e.2)]

def callKeyData (calls : List (MapCall × Datum)) : List Datum :=
  (calls.filter fun call => call.1 = .key).map Prod.snd

namespace Datum

def calls : Datum → List (MapCall × Datum)
  | .map entries => entryCalls entries
  | .keylessMap value => [(.value, value)]
  | .irregularMap calls => calls
  | _ => []

def inner : Datum → List Datum
  | .present value | .wrapper value | .wrapperVariant _ value => [value]
  | .sequence _ items | .variant _ _ items => items
  | d => d.calls.map Prod.snd

inductive Part : Datum → Datum → Prop
  | refl (d : Datum) : Part d d
  | inner {p c d : Datum} : c ∈ d.inner → Part p c → Part p d

structure Regular (d : Datum) : Prop where
  agrees : ∀ reason, d ≠ .refusal reason
  /-- A value comes only right behind a key; a map starts as if behind a value. -/
  paired : (MapCall.value :: d.calls.map Prod.fst).IsChain
    fun before call => call = .value → before = .key
  ascends : (callKeyData d.calls).Pairwise fun k k' => k.orderKey.cmp k'.orderKey = .lt

theorem sizeOf_lt_of_mem_calls {call : MapCall × Datum} {d : Datum} (member : call ∈ d.calls) :
    sizeOf call.2 < sizeOf d := by
  cases d with
  | map entries =>
      obtain ⟨e, inside, either⟩ := List.mem_flatMap.mp member
      have smaller := List.sizeOf_lt_of_mem inside
      rcases e with ⟨k, v⟩
      simp only [Prod.mk.sizeOf_spec] at smaller
      simp only [List.mem_cons, List.not_mem_nil, or_false] at either
      rcases either with rfl | rfl <;> simp only [map.sizeOf_spec] <;> omega
  | keylessMap value =>
      obtain rfl := List.mem_singleton.mp member
      simp
  | irregularMap calls =>
      have smaller : sizeOf call < sizeOf calls := List.sizeOf_lt_of_mem member
      rcases call with ⟨kind, d⟩
      simp only [Prod.mk.sizeOf_spec] at smaller
      simp only [irregularMap.sizeOf_spec]
      omega
  | _ => cases member

theorem sizeOf_lt_of_mem_inner {c d : Datum} (member : c ∈ d.inner) : sizeOf c < sizeOf d := by
  cases d with
  | present value | wrapper value | wrapperVariant index value =>
      obtain rfl := List.mem_singleton.mp member
      simp only [present.sizeOf_spec, wrapper.sizeOf_spec, wrapperVariant.sizeOf_spec]
      omega
  | sequence shape items | variant shape index items =>
      have smaller : sizeOf c < sizeOf items := List.sizeOf_lt_of_mem member
      simp only [sequence.sizeOf_spec, variant.sizeOf_spec]
      omega
  | _ =>
      obtain ⟨call, inside, rfl⟩ := List.mem_map.mp member
      exact sizeOf_lt_of_mem_calls inside

theorem inner_induction {P : Datum → Prop} (step : ∀ d, (∀ c ∈ d.inner, P c) → P d) (d : Datum) :
    P d :=
  step d fun c _ => inner_induction step c
termination_by sizeOf d
decreasing_by exact sizeOf_lt_of_mem_inner ‹_›

end Datum

/-! ## The last key stands for all -/

def Judges (earlier : List OrderKey) (last : Option OrderKey) : Prop :=
  ∀ key, (earlier.all fun previous => previous.cmp key = .lt) = mayFollow last key

variable {earlier : List OrderKey} {last : Option OrderKey} {key : OrderKey}

theorem judges_nil : Judges [] none := fun _ => rfl

theorem Judges.snoc (judges : Judges earlier last) (follows : mayFollow last key = true) :
    Judges (earlier ++ [key]) (some key) := by
  intro next
  rw [List.all_append]
  by_cases before : key.cmp next = .lt
  · have all : (earlier.all fun previous => previous.cmp next = .lt) = true := by
      rw [← judges key, List.all_eq_true] at follows
      rw [List.all_eq_true]
      intro previous member
      exact decide_eq_true
        (OrderKey.cmp_trans _ _ (of_decide_eq_true (follows previous member)) before)
    simp [all, mayFollow]
  · simp [before, mayFollow]

theorem Judges.offence? (judges : Judges earlier last) (key : OrderKey) :
    (Event.mapKey earlier key).offence? = if mayFollow last key then none else some .unordered := by
  rw [Event.offence?, judges key]

/-! ## The check meets the events in order -/

def verdict {α : Type} (a : α) : Option OrderError → Except OrderError α
  | none => .ok a
  | some e => .error e

theorem verdict_bind {α β : Type} (a : α) (offence : Option OrderError) (f : α → β) :
    (verdict a offence >>= fun x => pure (f x)) = verdict (f a) offence := by
  cases offence <;> rfl

def Datum.Judged (d : Datum) : Prop := d.key = verdict d.orderKey (firstOffence? d.events)

theorem keys_of_judged (items : List Datum) (judged : ∀ d ∈ items, d.Judged) :
    keys items = verdict (orderKeys items) (firstOffence? (itemEvents items)) := by
  induction items with
  | nil => rfl
  | cons d rest ih =>
      obtain ⟨first, others⟩ := List.forall_mem_cons.mp judged
      rw [keys, first, ih others, itemEvents, firstOffence?_append, orderKeys]
      cases firstOffence? d.events <;> cases firstOffence? (itemEvents rest) <;> rfl

theorem callKeys_of_judged (calls : List (MapCall × Datum)) (judged : ∀ call ∈ calls, call.2.Judged)
    (judges : Judges earlier last) (held : Option OrderKey) :
    callKeys held last calls = verdict (callOrderKeys held calls)
      (firstOffence? (callEvents held.isSome earlier calls)) := by
  induction calls generalizing earlier last held with
  | nil => rfl
  | cons call rest ih =>
      obtain ⟨first, others⟩ := List.forall_mem_cons.mp judged
      rcases call with ⟨_ | _, d⟩
      case key =>
        rw [callKeys, first, callEvents, firstOffence?_append, firstOffence?_cons,
          judges.offence?, callOrderKeys]
        cases firstOffence? d.events with
        | some e => rfl
        | none =>
            by_cases follows : mayFollow last d.orderKey = true
            · rw [if_pos follows]
              exact (if_pos follows).trans (ih others (judges.snoc follows) _)
            · rw [if_neg follows]
              exact if_neg follows
      case value =>
        cases held with
        | none => rw [callKeys]; rfl
        | some key =>
            rw [callKeys, first, ih others judges none, callOrderKeys]
            change _ = verdict _ (firstOffence? (d.events ++ callEvents false earlier rest))
            rw [firstOffence?_append]
            change (verdict _ (firstOffence? d.events) >>= fun value =>
              verdict _ (firstOffence? (callEvents false earlier rest)) >>= _) = _
            cases firstOffence? d.events <;>
              cases firstOffence? (callEvents false earlier rest) <;> rfl

theorem entryKeys_eq_callKeys (held last : Option OrderKey) (entries : List (Datum × Datum)) :
    entryKeys last entries = callKeys held last (entryCalls entries) := by
  induction entries generalizing held last with
  | nil => rfl
  | cons e rest ih =>
      obtain ⟨k, v⟩ := e
      have calls : entryCalls ((k, v) :: rest) = (.key, k) :: (.value, v) :: entryCalls rest := rfl
      rw [calls, entryKeys, callKeys]
      simp only [callKeys, ih none]

theorem entryEvents_eq_callEvents (held : Bool) (earlier : List OrderKey)
    (entries : List (Datum × Datum)) :
    entryEvents earlier entries = callEvents held earlier (entryCalls entries) := by
  induction entries generalizing held earlier with
  | nil => rfl
  | cons e rest ih =>
      obtain ⟨k, v⟩ := e
      have calls : entryCalls ((k, v) :: rest) = (.key, k) :: (.value, v) :: entryCalls rest := rfl
      rw [calls, entryEvents, callEvents, callEvents, ih false]
      rfl

theorem entryOrderKeys_eq_callOrderKeys (held : Option OrderKey) (entries : List (Datum × Datum)) :
    entryOrderKeys entries = callOrderKeys held (entryCalls entries) := by
  induction entries generalizing held with
  | nil => rfl
  | cons e rest ih =>
      obtain ⟨k, v⟩ := e
      have calls : entryCalls ((k, v) :: rest) = (.key, k) :: (.value, v) :: entryCalls rest := rfl
      rw [calls, entryOrderKeys, callOrderKeys, callOrderKeys, ih none]
      rfl

theorem Datum.judged (d : Datum) : d.Judged := by
  refine inner_induction (fun d inside => ?_) d
  unfold Judged
  cases d with
  | present value =>
      rw [key, inside value List.mem_cons_self]
      exact verdict_bind _ _ _
  | wrapper value => exact inside value List.mem_cons_self
  | wrapperVariant index value =>
      rw [key, inside value List.mem_cons_self]
      exact verdict_bind _ _ _
  | sequence shape items =>
      have run := keys_of_judged items inside
      rw [key, run]
      exact verdict_bind _ _ _
  | variant shape index items =>
      have run := keys_of_judged items inside
      rw [key, run]
      exact verdict_bind _ _ fun ks => OrderKey.variant index (.seq ks)
  | map entries =>
      have run := callKeys_of_judged (entryCalls entries) (List.forall_mem_map.mp inside) judges_nil
        none
      rw [key, entryKeys_eq_callKeys none, run, orderKey, events, entryEvents_eq_callEvents false,
        entryOrderKeys_eq_callOrderKeys none]
      exact verdict_bind _ _ _
  | irregularMap calls =>
      have run := callKeys_of_judged calls (List.forall_mem_map.mp inside) judges_nil none
      rw [key, run]
      exact verdict_bind _ _ _
  | unsigned width n => cases width <;> rfl
  | _ => rfl

theorem Datum.eq_orderKey {d : Datum} {key : OrderKey} (run : d.key = .ok key) :
    key = d.orderKey := by
  rw [d.judged] at run
  cases offence : firstOffence? d.events with
  | none => simpa [offence, verdict] using run.symm
  | some e => simp [offence, verdict] at run

/-! ## Regular parts -/

namespace Datum

def Clean (d : Datum) : Prop := firstOffence? d.events = none

theorem clean_items {items : List Datum} :
    firstOffence? (itemEvents items) = none ↔ ∀ d ∈ items, d.Clean := by
  induction items with
  | nil => simp [itemEvents, firstOffence?]
  | cons d rest ih =>
      rw [itemEvents, firstOffence?_append, Option.or_eq_none_iff, ih, List.forall_mem_cons]
      rfl

theorem offence?_mapKey {earlier : List OrderKey} {key : OrderKey} :
    (Event.mapKey earlier key).offence? = none ↔ ∀ previous ∈ earlier, previous.cmp key = .lt := by
  simp [Event.offence?]

theorem clean_calls {calls : List (MapCall × Datum)} {held : Bool} {earlier : List OrderKey} :
    firstOffence? (callEvents held earlier calls) = none ↔
      (∀ call ∈ calls, call.2.Clean) ∧
      ((if held then .key else .value) :: calls.map Prod.fst).IsChain
        (fun before call => call = MapCall.value → before = .key) ∧
      (callKeyData calls).Pairwise (fun k k' => k.orderKey.cmp k'.orderKey = .lt) ∧
      ∀ previous ∈ earlier, ∀ k ∈ callKeyData calls, previous.cmp k.orderKey = .lt := by
  induction calls generalizing held earlier with
  | nil => simp [callEvents, firstOffence?, callKeyData]
  | cons call rest ih =>
      rcases call with ⟨_ | _, d⟩
      case key =>
        have keys : callKeyData ((.key, d) :: rest) = d :: callKeyData rest := rfl
        simp only [callEvents, firstOffence?_append, firstOffence?_cons, Option.or_eq_none_iff,
          offence?_mapKey, ih, keys, List.forall_mem_cons, List.map_cons, List.isChain_cons_cons,
          List.pairwise_cons, List.forall_mem_append, ↓reduceIte]
        constructor
        · rintro ⟨first, above, others, paired, ascends, behind, ⟨after, -⟩⟩
          exact ⟨⟨first, others⟩, ⟨by rintro ⟨⟩, paired⟩, ⟨after, ascends⟩,
            fun previous member => ⟨above previous member, behind previous member⟩⟩
        · rintro ⟨⟨first, others⟩, ⟨-, paired⟩, ⟨after, ascends⟩, above⟩
          exact ⟨first, fun previous member => (above previous member).1, others, paired, ascends,
            fun previous member => (above previous member).2, after, by simp⟩
      case value =>
        have keys : callKeyData ((.value, d) :: rest) = callKeyData rest := rfl
        have bare : firstOffence? (if held then [] else [.bareValue]) = none ↔ held = true := by
          cases held <;> simp [firstOffence?, Event.offence?]
        simp only [callEvents, firstOffence?_append, Option.or_eq_none_iff, bare, ih, keys,
          List.forall_mem_cons, List.map_cons, List.isChain_cons_cons]
        cases held with
        | false => simp
        | true => simp [Clean, and_assoc]

theorem regular_of_no_calls {d : Datum} (agrees : ∀ reason, d ≠ .refusal reason)
    (none : d.calls = []) : d.Regular where
  agrees := agrees
  paired := by simp [none]
  ascends := by simp [none, callKeyData]

theorem clean_of_calls {d : Datum} (agrees : ∀ reason, d ≠ .refusal reason) :
    firstOffence? (callEvents false [] d.calls) = none ↔
      d.Regular ∧ ∀ c ∈ d.calls.map Prod.snd, c.Clean := by
  rw [clean_calls, List.forall_mem_map]
  constructor
  · rintro ⟨inside, paired, ascends, -⟩
    exact ⟨⟨agrees, paired, ascends⟩, inside⟩
  · rintro ⟨⟨-, paired, ascends⟩, inside⟩
    exact ⟨inside, paired, ascends, by simp⟩

theorem clean_iff {d : Datum} : d.Clean ↔ d.Regular ∧ ∀ c ∈ d.inner, c.Clean := by
  cases d with
  | present value | wrapper value | wrapperVariant index value =>
      constructor
      · exact fun clean =>
          ⟨regular_of_no_calls (by rintro _ ⟨⟩) rfl, List.forall_mem_singleton.mpr clean⟩
      · exact fun ⟨_, inside⟩ => inside value List.mem_cons_self
  | sequence shape items | variant shape index items =>
      constructor
      · exact fun clean => ⟨regular_of_no_calls (by rintro _ ⟨⟩) rfl, clean_items.mp clean⟩
      · exact fun ⟨_, inside⟩ => clean_items.mpr inside
  | map entries =>
      rw [Clean, events, entryEvents_eq_callEvents false]
      exact clean_of_calls (d := .map entries) (by rintro _ ⟨⟩)
  | irregularMap calls => exact clean_of_calls (d := .irregularMap calls) (by rintro _ ⟨⟩)
  | keylessMap value =>
      constructor
      · rintro ⟨⟩
      · rintro ⟨regular, -⟩
        cases (List.isChain_cons_cons.mp regular.paired).1 rfl
  | refusal reason =>
      constructor
      · rintro ⟨⟩
      · rintro ⟨regular, -⟩
        exact absurd rfl (regular.agrees reason)
  | _ => exact ⟨fun _ => ⟨regular_of_no_calls (by rintro _ ⟨⟩) rfl, by rintro _ ⟨⟩⟩, fun _ => rfl⟩

theorem Part.clean {p d : Datum} (part : Part p d) (clean : d.Clean) : p.Clean := by
  induction part with
  | refl => exact clean
  | inner member _ ih => exact ih ((clean_iff.mp clean).2 _ member)

theorem clean_iff_parts {d : Datum} : d.Clean ↔ ∀ p, Part p d → p.Regular := by
  constructor
  · intro clean p part
    exact (clean_iff.mp (part.clean clean)).1
  · refine inner_induction (P := fun d => (∀ p, Part p d → p.Regular) → d.Clean) ?_ d
    intro d inside regular
    refine clean_iff.mpr ⟨regular d (.refl d), fun c member => inside c member fun p part => ?_⟩
    exact regular p (.inner member part)

end Datum

/-! ## The check -/

theorem checkOrder_eq (d : Datum) : checkOrder d = verdict () (firstOffence? d.events) := by
  rw [checkOrder, d.judged]
  cases firstOffence? d.events <;> rfl

/-- The check accepts a datum exactly if all its parts are regular.  Otherwise it
reports the first offence among the events.  The key that it makes is the order key. -/
theorem checkOrder_firstOffence (d : Datum) :
    (checkOrder d = .ok () ↔ ∀ p : Datum, p.Part d → p.Regular) ∧
      (∀ e, checkOrder d = .error e ↔ ∃ front event rest, d.events = front ++ event :: rest ∧
        event.offence? = some e ∧ ∀ earlier ∈ front, earlier.offence? = none) ∧
      ∀ key, d.key = .ok key → key = d.orderKey := by
  refine ⟨?_, fun e => ?_, fun key => Datum.eq_orderKey⟩
  · rw [← Datum.clean_iff_parts, Datum.Clean, checkOrder_eq]
    cases firstOffence? d.events <;> simp [verdict]
  · rw [← List.findSome?_eq_some_iff, ← firstOffence?, checkOrder_eq]
    cases firstOffence? d.events <;> simp [verdict]

/-- A key is compared before its value is taken apart. -/
example : checkOrder (.map [(.bool true, .unit), (.bool false, .refusal "no value")]) =
    .error .unordered := rfl

end Chronicle.Plain
