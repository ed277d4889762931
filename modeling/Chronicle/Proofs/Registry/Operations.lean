import Chronicle.Proofs.Digest
import Chronicle.Proofs.Registry.Fed

/-!
# Operations that come and go

Of all records only those of references may share name and kind with another one.
So a handler that gains or loses operations, but is no reference, keeps the place of
its record, and a single octet of what is fed to the fingerprint changes.  The
fingerprint cannot stay the same then.
-/

namespace Chronicle

def Handler.operations (h : Handler) : Bool × Bool × Bool :=
  (h.initializer.isSome, h.writer.isSome, h.reader.isSome)

namespace HandlerRecord

variable {h h' : Handler} {r s : HandlerRecord} {operations : Nat}

/-! ## One record with other operations -/

theorem operations_eq_of_bits (same : operationBits h = operationBits h') :
    h.operations = h'.operations := by
  have digits : ∀ a b c a' b' c' : Bool,
      a.toNat + 2 * b.toNat + 4 * c.toNat = a'.toNat + 2 * b'.toNat + 4 * c'.toNat →
        (a, b, c) = (a', b', c') := by decide
  exact digits _ _ _ _ _ _ same

theorem operations_eq_of_octet
    (same : UInt8.ofNat (operationBits h) = UInt8.ofNat (operationBits h')) :
    h.operations = h'.operations := by
  have small (h : Handler) : operationBits h < UInt8.size := (coded_ofHandler {} h).operations
  have value := congrArg UInt8.toNat same
  rw [UInt8.toNat_ofNat_of_lt' (small h), UInt8.toNat_ofNat_of_lt' (small h')] at value
  exact operations_eq_of_bits value

theorem cmp_of_apart (apart : ¬ (r.name = s.name ∧ r.kind = s.kind)) :
    r.cmp s = (compare r.name s.name).then (compare r.kind s.kind) := by
  unfold cmp
  cases names : compare r.name s.name with
  | lt | gt => rfl
  | eq =>
      cases kinds : compare r.kind s.kind with
      | lt | gt => rfl
      | eq =>
          exact absurd
            ⟨Std.LawfulEqCmp.eq_of_compare names, Std.LawfulEqCmp.eq_of_compare kinds⟩ apart

/-- A record that shares name and kind with no other one stays in its place when its
operations change. -/
theorem pairwise_of_operations {front back : List HandlerRecord}
    (sorted : (front ++ r :: back).Pairwise fun s t => (s.cmp t).isLE)
    (alone : ∀ s ∈ front ++ back, ¬ (s.name = r.name ∧ s.kind = r.kind)) :
    (front ++ { r with operations } :: back).Pairwise fun s t => (s.cmp t).isLE := by
  obtain ⟨before, behind, across⟩ := List.pairwise_append.mp sorted
  obtain ⟨least, rest⟩ := List.pairwise_cons.mp behind
  obtain ⟨first, second⟩ := List.forall_mem_append.mp alone
  refine List.pairwise_append.mpr ⟨before, List.pairwise_cons.mpr ⟨fun t later => ?_, rest⟩,
    fun s earlier => List.forall_mem_cons.mpr ⟨?_, fun t later => ?_⟩⟩
  · have apart : ¬ (r.name = t.name ∧ r.kind = t.kind) := fun same =>
      second t later ⟨same.1.symm, same.2.symm⟩
    have le := least t later
    rw [cmp_of_apart apart] at le
    rw [cmp_of_apart (r := { r with operations }) apart]
    exact le
  · have le := across s earlier r List.mem_cons_self
    rw [cmp_of_apart (first s earlier)] at le
    rw [cmp_of_apart (s := { r with operations }) (first s earlier)]
    exact le
  · exact across s earlier t (List.mem_cons_of_mem _ later)

theorem fed_eq (r : HandlerRecord) : ∃ front rest, ∀ operations,
    fed { r with operations } = front ++ UInt8.ofNat operations :: rest :=
  ⟨Digest.text r.name ++ [UInt8.ofNat r.kind],
    Digest.word r.dependencies.length ++ r.dependencies.flatMap fedDependency, by simp [fed]⟩

end HandlerRecord

namespace Builder

open HandlerRecord

variable {b b' : Builder} {r r' : Registry} {h h' : Handler} {rest rest' : List Handler}

/-! ## Two builders -/

def dependencyNames (b : Builder) (h : Handler) : List (String × Bool) :=
  h.dependencies.map fun d => (b.stableName d.type, d.needsInitializer)

/-- Handlers of two builders with the same name, of the same kind and with the same
dependencies in whatever order, these by their stable names. -/
structure Alike (b b' : Builder) (h h' : Handler) : Prop where
  name : h.name = h'.name
  kind : kindCode h.kind = kindCode h'.kind
  dependencies : (b.dependencyNames h).Perm (b'.dependencyNames h')

structure Same (b b' : Builder) (h h' : Handler) : Prop extends Alike b b' h h' where
  operations : h.operations = h'.operations

theorem name_ofHandler (b : Builder) (h : Handler) : (ofHandler b h).name =
    if kindCode h.kind = 1 then (b.dependencyNames h).head?.elim h.name Prod.fst else h.name := by
  unfold ofHandler dependencyNames
  cases h.kind <;> cases h.dependencies <;> rfl

theorem Reached.dependencyNames_of_shared (reached : b.Reached) (member : h ∈ b.handlers)
    (shared : kindCode h.kind = 1) : ∃ d, b.dependencyNames h = [d] := by
  obtain ⟨content, _, rfl⟩ := reached.coherent.listed h member (kindCode_eq_one.mp shared)
  exact ⟨_, rfl⟩

theorem Alike.ofHandler_eq (alike : Alike b b' h h') (reached : b.Reached)
    (member : h ∈ b.handlers) :
    ofHandler b' h' = { ofHandler b h with operations := operationBits h' } := by
  have name : (ofHandler b h).name = (ofHandler b' h').name := by
    rw [name_ofHandler, name_ofHandler, alike.name, ← alike.kind]
    split
    · next shared =>
        obtain ⟨d, single⟩ := reached.dependencyNames_of_shared member shared
        have perm := alike.dependencies
        rw [single] at perm
        rw [single, List.singleton_perm.mp perm]
    · rfl
  have dependencies : (ofHandler b h).dependencies = (ofHandler b' h').dependencies :=
    mergeSort_eq_of_perm dependencyCmp alike.dependencies fun _ _ _ _ => eq_of_dependencyCmp
  change _ = HandlerRecord.mk (ofHandler b h).name (kindCode h.kind) _ (ofHandler b h).dependencies
  rw [name, alike.kind, dependencies]
  rfl

theorem Same.ofHandler_eq (same : Same b b' h h') (reached : b.Reached) (member : h ∈ b.handlers) :
    ofHandler b h = ofHandler b' h' := by
  have bits : operationBits h = operationBits h' := by
    have operations := same.operations
    simp only [Handler.operations, Prod.mk.injEq] at operations
    simp only [operationBits, operations]
  rw [same.toAlike.ofHandler_eq reached member, ← bits]
  rfl

theorem map_ofHandler_eq (same : List.Forall₂ (Same b b') rest rest') (reached : b.Reached)
    (members : ∀ g ∈ rest, g ∈ b.handlers) : rest.map (ofHandler b) = rest'.map (ofHandler b') := by
  induction same with
  | nil => rfl
  | cons first _ ih =>
      obtain ⟨member, members⟩ := List.forall_mem_cons.mp members
      rw [List.map_cons, List.map_cons, first.ofHandler_eq reached member, ih members]

theorem WellFormed.record_alone (wellFormed : b.WellFormed) (listed : b.handlers.Perm (h :: rest))
    (other : h.kind ≠ .shared) :
    ∀ s ∈ rest.map (ofHandler b),
      ¬ (s.name = (ofHandler b h).name ∧ s.kind = (ofHandler b h).kind) := by
  intro s member same
  obtain ⟨g, inside, rfl⟩ := List.mem_map.mp member
  obtain ⟨names, kinds⟩ := same
  have other' : g.kind ≠ .shared := by
    intro shared
    have code : kindCode h.kind = 1 := kinds.symm.trans (kindCode_eq_one.mpr shared)
    exact other (kindCode_eq_one.mp code)
  rw [name_ofHandler, name_ofHandler, if_neg (mt kindCode_eq_one.mp other),
    if_neg (mt kindCode_eq_one.mp other')] at names
  have apart := ((listed.filter (·.kind ≠ .shared)).pairwise_iff Ne.symm).mp wellFormed.names
  rw [List.filter_cons_of_pos (by simpa using other)] at apart
  exact (List.pairwise_cons.mp apart).1 g
    (List.mem_filter.mpr ⟨inside, by simpa using other'⟩) names.symm

/-- The records of two builders whose handlers are alike, all but one with the same
operations and that one no reference. -/
theorem records_split (reached : b.Reached) (wellFormed : b.WellFormed)
    (listed : b.handlers.Perm (h :: rest)) (listed' : b'.handlers.Perm (h' :: rest'))
    (others : List.Forall₂ (Same b b') rest rest') (alike : Alike b b' h h')
    (other : h.kind ≠ .shared) :
    ∃ front back, b.records = front ++ ofHandler b h :: back ∧
      b'.records = front ++ ofHandler b' h' :: back := by
  have sorted (b : Builder) : b.records.Pairwise fun s t => (s.cmp t).isLE :=
    pairwise_mergeSort_of_cmp HandlerRecord.cmp _
  have perm := (records_perm b).trans (listed.map (ofHandler b))
  have perm' := (records_perm b').trans (listed'.map (ofHandler b'))
  obtain ⟨front, back, split⟩ := List.append_of_mem (perm.mem_iff.mpr List.mem_cons_self)
  rw [split] at perm
  have kept := (List.perm_middle.symm.trans perm).cons_inv
  have alone : ∀ s ∈ front ++ back,
    ¬ (s.name = (ofHandler b h).name ∧ s.kind = (ofHandler b h).kind) :=
    fun s member => wellFormed.record_alone listed other s (kept.mem_iff.mp member)
  have replaced : (front ++ ofHandler b' h' :: back).Pairwise fun s t => (s.cmp t).isLE := by
    rw [alike.ofHandler_eq reached (listed.mem_iff.mpr List.mem_cons_self)]
    exact pairwise_of_operations (split ▸ sorted b) alone
  refine ⟨front, back, split, ?_⟩
  refine List.Perm.eq_of_pairwise (fun s t _ _ le ge => ?_) (sorted b') replaced ?_
  · exact HandlerRecord.eq_of_cmp (Std.OrientedCmp.isLE_antisymm le ge)
  · have members : ∀ g ∈ rest, g ∈ b.handlers :=
      fun g later => listed.mem_iff.mpr (List.mem_cons_of_mem h later)
    rw [List.map_cons, ← map_ofHandler_eq others reached members] at perm'
    exact perm'.trans ((kept.symm.cons _).trans List.perm_middle.symm)

theorem fed_of_split {front back : List HandlerRecord} {s : HandlerRecord} {octet : UInt8}
    {start rest : Bytes} (laid : s.fed = start ++ octet :: rest)
    (split : b.records = front ++ s :: back) :
    b.fed = (Digest.word (front.length + (back.length + 1)) ++
      front.flatMap HandlerRecord.fed ++ start) ++
      octet :: (rest ++ back.flatMap HandlerRecord.fed) := by
  rw [Builder.fed, split]
  simp [laid]

theorem fed_ne_of_operations (reached : b.Reached) (wellFormed : b.WellFormed)
    (listed : b.handlers.Perm (h :: rest)) (listed' : b'.handlers.Perm (h' :: rest'))
    (others : List.Forall₂ (Same b b') rest rest') (alike : Alike b b' h h')
    (other : h.kind ≠ .shared) (differ : h.operations ≠ h'.operations) :
    Fingerprint.ofFed b.fed ≠ Fingerprint.ofFed b'.fed := by
  obtain ⟨front, back, split, split'⟩ :=
    records_split reached wellFormed listed listed' others alike other
  obtain ⟨start, behind, laid⟩ := HandlerRecord.fed_eq (ofHandler b h)
  rw [alike.ofHandler_eq reached (listed.mem_iff.mpr List.mem_cons_self)] at split'
  rw [fed_of_split (laid (operationBits h)) split, fed_of_split (laid (operationBits h')) split']
  exact Fingerprint.ofFed_ne (mt operations_eq_of_octet differ) _ _

/-- Byte strings that differ in one place have different fingerprints, and so do
registries that differ in the operations of one handler, unless it is that of a
reference. -/
theorem operations_told_apart :
    (∀ bs bs' : Bytes, bs.length = bs'.length → (∃! i : Nat, bs[i]? ≠ bs'[i]?) →
      Fingerprint.ofFed bs ≠ Fingerprint.ofFed bs') ∧
    ∀ (b b' : Builder) (r r' : Registry) (h h' : Handler) (rest rest' : List Handler), b.Reached →
      b.build = .ok r → b'.build = .ok r' →
      r.handlers.Perm (h :: rest) → r'.handlers.Perm (h' :: rest') →
      List.Forall₂ (Same b b') rest rest' → Alike b b' h h' → h.kind ≠ .shared →
      h.operations ≠ h'.operations → r.fingerprint ≠ r'.fingerprint := by
  constructor
  · intro bs bs' length once
    obtain ⟨front, c, c', rest, rfl, rfl, differ⟩ := Bytes.exists_split length once
    exact Fingerprint.ofFed_ne differ front rest
  · intro b b' r r' h h' rest rest' reached built built' listed listed' others alike other differ
    obtain ⟨valid, rfl⟩ := validate_of_build built
    obtain ⟨-, rfl⟩ := validate_of_build built'
    exact fed_ne_of_operations reached (Validation.validate_iff_wellFormed.mp valid)
      listed listed' others alike other differ

def hostHandler (writer : Option Layout) : Handler :=
  { Handler.plain (.named "host") .unit .nothing with writer }

def hosted (writer : Option Layout) : Builder where
  handlers := [hostHandler writer, .plain .text (.text "") .text]

theorem hosted_reached (writer : Option Layout) : (hosted writer).Reached := by
  have first : register (hostHandler writer) {} = .ok () { handlers := [hostHandler writer] } := rfl
  have second : register (.plain .text (.text "") .text) { handlers := [hostHandler writer] } =
      .ok () (hosted writer) := rfl
  exact .step (.step .empty (.handler rfl) (.inl first)) (.handler rfl) (.inl second)

theorem hosted_complete (writer : Option Layout) : (hosted writer).Complete where
  distinct := by
    change (["host", Ty.text.name] : List String).Nodup
    decide
  handler := by simp [hosted, hostHandler, Handler.plain]
  root := by simp [hosted]
  content := by simp [hosted]

theorem operations_told_apart_hosted :
    Fingerprint.ofFed [1, 2, 3] ≠ Fingerprint.ofFed [1, 9, 3] ∧
    ∃ r r', (hosted none).build = .ok r ∧ (hosted (some .nothing)).build = .ok r' ∧
      r.fingerprint ≠ r'.fingerprint := by
  have once : ∃! i : Nat, ([1, 2, 3] : Bytes)[i]? ≠ ([1, 9, 3] : Bytes)[i]? := by
    refine ⟨1, by decide, fun i differ => ?_⟩
    match i with
    | 0 | 1 | 2 | i + 3 => simp at differ ⊢
  have built := (hosted_complete none).build_eq_ok
  have built' := (hosted_complete (some .nothing)).build_eq_ok
  refine ⟨operations_told_apart.1 _ _ rfl once, _, _, built, built', ?_⟩
  refine operations_told_apart.2 _ _ _ _ _ _ _ _ (hosted_reached none) built built'
    (.of_eq rfl) (.of_eq rfl) ?_ ⟨rfl, rfl, .refl _⟩ (by rintro ⟨⟩)
    (by simp [Handler.operations, hostHandler])
  exact .cons ⟨⟨rfl, rfl, .refl _⟩, rfl⟩ .nil

end Builder

end Chronicle
