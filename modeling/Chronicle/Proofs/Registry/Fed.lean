import Chronicle.Proofs.Registry.Canonical
import Chronicle.Proofs.Registry.WellFormed

/-!
# What a fingerprint is taken over

The octets that are fed to a fingerprint tell all the records apart: texts and
lists have their lengths in front and everything else has a fixed width, so no
layout runs over into the next.  The records of references, on the other hand,
name their contents in the order of the tags.  So whoever feeds the same octets
has the same records and the same names behind the same tags.
-/

namespace Chronicle

/-! ## Layouts that end by themselves -/

def Delimited {α : Type} (fits : α → Prop) (lay : α → Bytes) : Prop :=
  ∀ {a a' : α} {rest rest' : Bytes}, fits a → fits a' →
    lay a ++ rest = lay a' ++ rest' → a = a' ∧ rest = rest'

def Narrow (s : String) : Prop := (Utf8.encode s).length < leBound 4

theorem delimited_word : Delimited (· < leBound 4) Digest.word := by
  intro n n' rest rest' small small' same
  obtain ⟨word, rest⟩ := List.append_inj same (by simp [Digest.word])
  refine ⟨?_, rest⟩
  have read := congrArg ofLeBytes word
  rwa [Digest.word, Digest.word, ofLeBytes_leBytes, ofLeBytes_leBytes, Nat.mod_eq_of_lt small,
    Nat.mod_eq_of_lt small'] at read

theorem delimited_text : Delimited Narrow Digest.text := by
  intro s s' rest rest' narrow narrow' same
  simp only [Digest.text, List.append_assoc] at same
  obtain ⟨length, same⟩ := delimited_word narrow narrow' same
  obtain ⟨octets, rest⟩ := List.append_inj same length
  exact ⟨Utf8.encode_injective octets, rest⟩

namespace Delimited

variable {α : Type} {fits : α → Prop} {lay : α → Bytes}

theorem flatMap (each : Delimited fits lay) {items items' : List α} {rest rest' : Bytes}
    (all : ∀ a ∈ items, fits a) (all' : ∀ a ∈ items', fits a)
    (length : items.length = items'.length)
    (same : items.flatMap lay ++ rest = items'.flatMap lay ++ rest') :
    items = items' ∧ rest = rest' := by
  induction items generalizing items' with
  | nil =>
      obtain rfl := List.eq_nil_of_length_eq_zero length.symm
      exact ⟨rfl, same⟩
  | cons a items ih =>
      cases items' with
      | nil => simp at length
      | cons a' items' =>
          obtain ⟨head, tail⟩ := List.forall_mem_cons.mp all
          obtain ⟨head', tail'⟩ := List.forall_mem_cons.mp all'
          simp only [List.flatMap_cons, List.append_assoc] at same
          obtain ⟨first, others⟩ := each head head' same
          obtain ⟨items, rest⟩ := ih tail tail' (by simpa using length) others
          exact ⟨by rw [first, items], rest⟩

theorem counted (each : Delimited fits lay) :
    Delimited (fun items : List α => items.length < leBound 4 ∧ ∀ a ∈ items, fits a)
      fun items => Digest.word items.length ++ items.flatMap lay := by
  rintro items items' rest rest' ⟨short, all⟩ ⟨short', all'⟩ same
  simp only [List.append_assoc] at same
  obtain ⟨length, same⟩ := delimited_word short short' same
  exact each.flatMap all all' length same

end Delimited

/-! ## Records -/

namespace HandlerRecord

/-- The names and counts of a record fit the words in front of them. -/
structure Fits (r : HandlerRecord) : Prop where
  name : Narrow r.name
  count : r.dependencies.length < leBound 4
  dependencies : ∀ d ∈ r.dependencies, Narrow d.1

structure Coded (r : HandlerRecord) : Prop where
  kind : r.kind < 256
  operations : r.operations < 256

theorem coded_ofHandler (b : Builder) (h : Handler) : (ofHandler b h).Coded where
  kind := by
    change kindCode h.kind < 256
    cases h.kind <;> simp [kindCode]
  operations := by
    have bit (flag : Bool) : flag.toNat ≤ 1 := flag.toNat_le
    have initializer := bit h.initializer.isSome
    have writer := bit h.writer.isSome
    have reader := bit h.reader.isSome
    change operationBits h < 256
    unfold operationBits
    omega

theorem delimited_dependency : Delimited (fun d => Narrow d.1) fedDependency := by
  rintro ⟨name, flag⟩ ⟨name', flag'⟩ rest rest' narrow narrow' same
  simp only [fedDependency, List.append_assoc] at same
  obtain ⟨rfl, flags⟩ := delimited_text narrow narrow' same
  obtain ⟨octet, rest⟩ := List.cons.inj flags
  cases flag <;> cases flag' <;> simp at octet ⊢ <;> exact rest

theorem delimited_fed : Delimited (fun r => r.Fits ∧ r.Coded) fed := by
  rintro r r' rest rest' ⟨fits, coded⟩ ⟨fits', coded'⟩ same
  simp only [fed, List.append_assoc] at same
  obtain ⟨name, same⟩ := delimited_text fits.name fits'.name same
  simp only [List.cons_append, List.nil_append, List.cons.injEq] at same
  obtain ⟨kind, operations, same⟩ := same
  rw [← List.append_assoc, ← List.append_assoc] at same
  obtain ⟨dependencies, rest⟩ := delimited_dependency.counted ⟨fits.count, fits.dependencies⟩
    ⟨fits'.count, fits'.dependencies⟩ same
  refine ⟨?_, rest⟩
  have octet {n n' : Nat} (small : n < 256) (small' : n' < 256)
      (same : UInt8.ofNat n = UInt8.ofNat n') : n = n' := by
    have value := congrArg UInt8.toNat same
    simp only [UInt8.toNat_ofNat'] at value
    omega
  cases r
  cases r'
  simp only [mk.injEq]
  exact ⟨name, octet coded.kind coded'.kind kind,
    octet coded.operations coded'.operations operations, dependencies⟩

end HandlerRecord

namespace Builder

variable {b b' : Builder}

structure Fits (b : Builder) : Prop where
  count : b.handlers.length < leBound 4
  records : ∀ r ∈ b.records, r.Fits

theorem records_perm (b : Builder) : b.records.Perm (b.handlers.map (HandlerRecord.ofHandler b)) :=
  List.mergeSort_perm _ _

theorem coded_of_mem_records {r : HandlerRecord} (member : r ∈ b.records) : r.Coded := by
  obtain ⟨h, -, rfl⟩ := List.mem_map.mp ((records_perm b).mem_iff.mp member)
  exact HandlerRecord.coded_ofHandler b h

theorem records_eq_of_fed_eq (fits : b.Fits) (fits' : b'.Fits) (same : b.fed = b'.fed) :
    b.records = b'.records := by
  have short {b : Builder} (fits : b.Fits) : b.records.length < leBound 4 := by
    rw [(records_perm b).length_eq, List.length_map]
    exact fits.count
  have whole : b.fed ++ [] = b'.fed ++ [] := by rw [same]
  exact (HandlerRecord.delimited_fed.counted
    ⟨short fits, fun r member => ⟨fits.records r member, coded_of_mem_records member⟩⟩
    ⟨short fits', fun r member => ⟨fits'.records r member, coded_of_mem_records member⟩⟩ whole).1

/-! ## References and tags -/

theorem tagOrder_perm (b : Builder) : b.tagOrder.Perm b.contents := List.mergeSort_perm _ _

theorem Reached.mem_handlers_of_content (reached : b.Reached) :
    ∀ content ∈ b.contents, Handler.shared content ∈ b.handlers := by
  refine reached.handler_induction
    (P := fun b => ∀ content ∈ b.contents, Handler.shared content ∈ b.handlers) ?empty ?basics
    (fun _ _ _ old content member => List.mem_append_left _ (old content member)) ?reference ?root
  case empty => simp
  case basics => exact fun content member => (List.not_mem_nil member).elim
  case reference =>
    intro b content _ old content' member
    rcases List.mem_append.mp member with before | new
    · exact List.mem_append_left _ (old content' before)
    · rw [List.mem_singleton.mp new]
      exact List.mem_append_right _ (List.mem_singleton_self _)
  case root =>
    intro b type old
    unfold declareRoot
    split <;> exact old

theorem Reached.references_perm (reached : b.Reached) :
    (b.handlers.filter (·.kind = .shared)).Perm (b.contents.map Handler.shared) := by
  have distinct : (b.contents.map Handler.shared).Nodup := by
    refine reached.coherent.nodup.map fun content content' same => ?_
    exact Ty.shared.inj (congrArg Handler.type same)
  refine (List.perm_ext_iff_of_nodup (reached.keyed.of_map.filter _) distinct).mpr fun h => ?_
  simp only [List.mem_filter, decide_eq_true_eq, List.mem_map]
  constructor
  · rintro ⟨member, kind⟩
    obtain ⟨content, listed, rfl⟩ := reached.coherent.listed h member kind
    exact ⟨content, listed, rfl⟩
  · rintro ⟨content, listed, rfl⟩
    exact ⟨reached.mem_handlers_of_content content listed, rfl⟩

theorem kindCode_eq_one {kind : HandlerKind} :
    HandlerRecord.kindCode kind = 1 ↔ kind = .shared := by
  cases kind <;> simp [HandlerRecord.kindCode]

theorem Reached.referenceNames_perm (reached : b.Reached) :
    ((b.records.filter (·.kind = 1)).map (·.name)).Perm (b.contents.map b.stableName) := by
  have references := ((records_perm b).filter (·.kind = 1)).map (·.name)
  have kinds : (fun r : HandlerRecord => decide (r.kind = 1)) ∘ HandlerRecord.ofHandler b =
      fun h => decide (h.kind = .shared) := by
    funext h
    exact decide_eq_decide.mpr kindCode_eq_one
  rw [List.filter_map, kinds, List.map_map] at references
  have contents := reached.references_perm.map fun h => (HandlerRecord.ofHandler b h).name
  rw [List.map_map] at contents
  exact references.trans contents

theorem Reached.tagNames_eq (reached : b.Reached) :
    b.tagOrder.map b.stableName = (b.records.filter (·.kind = 1)).map (·.name) := by
  have perm := ((tagOrder_perm b).map b.stableName).trans reached.referenceNames_perm.symm
  have tags : (b.tagOrder.map b.stableName).Pairwise fun s t => (compare s t).isLE := by
    rw [List.pairwise_map]
    exact (pairwise_mergeSort_of_cmp (compareLex (compareOn b.stableName) (compareOn Ty.name))
      b.contents).imp isLE_of_isLE_then
  have records : ((b.records.filter (·.kind = 1)).map (·.name)).Pairwise
      fun s t => (compare s t).isLE := by
    rw [List.pairwise_map]
    exact ((pairwise_mergeSort_of_cmp HandlerRecord.cmp _).filter _).imp isLE_of_isLE_then
  refine perm.eq_of_pairwise (fun s t _ _ le ge => ?_) tags records
  exact Std.LawfulEqCmp.eq_of_compare (Std.OrientedCmp.isLE_antisymm le ge)

/-- Two registries for which the same octets are fed to the fingerprint have the
same records, and the contents behind each tag have the same stable name. -/
theorem records_and_tags_of_fed {r r' : Registry} (reached : b.Reached) (reached' : b'.Reached)
    (built : b.build = .ok r) (built' : b'.build = .ok r') (fits : b.Fits) (fits' : b'.Fits)
    (same : b.fed = b'.fed) :
    b.records = b'.records ∧ r.tags.length = r'.tags.length ∧
      ∀ tag content, r.ofTag? tag = some content → ∃ content', r'.ofTag? tag = some content' ∧
        Handler.shared content ∈ r.handlers ∧ Handler.shared content' ∈ r'.handlers ∧
          b.stableName content = b'.stableName content' := by
  obtain ⟨-, rfl⟩ := validate_of_build built
  obtain ⟨-, rfl⟩ := validate_of_build built'
  have records := records_eq_of_fed_eq fits fits' same
  have names : b.tagOrder.map b.stableName = b'.tagOrder.map b'.stableName := by
    rw [reached.tagNames_eq, reached'.tagNames_eq, records]
  refine ⟨records, by simpa using congrArg List.length names, fun tag content found => ?_⟩
  have name : (b'.tagOrder.map b'.stableName)[tag]? = some (b.stableName content) := by
    rw [← names, List.getElem?_map]
    exact congrArg (Option.map b.stableName) found
  rw [List.getElem?_map, Option.map_eq_some_iff] at name
  obtain ⟨content', found', name⟩ := name
  have registered {b : Builder} (reached : b.Reached) {content : Ty} {tag : Nat}
      (found : b.tagOrder[tag]? = some content) : Handler.shared content ∈ b.handlers :=
    reached.mem_handlers_of_content content
      ((tagOrder_perm b).mem_iff.mp (List.mem_of_getElem? found))
  exact ⟨content', found', registered reached found, registered reached' found', name.symm⟩

def renamedHandler (path : String) : Handler :=
  { Handler.plain (.named path) .unit .nothing with name := "content" }

def renamed (path : String) : Builder where
  handlers := [renamedHandler path, .shared (.named path)]
  contents := [.named path]

theorem renamed_records (path : String) : (renamed path).records =
    [⟨"content", 0, 7, []⟩, ⟨"content", 1, 7, [("content", true)]⟩] := by
  have handled : (renamed path).handlers.map (HandlerRecord.ofHandler (renamed path)) =
      [⟨"content", 0, 7, []⟩, ⟨"content", 1, 7, [("content", true)]⟩] := by
    simp [renamed, renamedHandler, HandlerRecord.ofHandler, stableName, find?, Handler.plain,
      Handler.shared, Handler.creates, HandlerRecord.kindCode, HandlerRecord.operationBits]
  rw [records, handled]
  exact List.mergeSort_of_pairwise (by decide)

theorem renamed_reached (path : String) : Reached (renamed path) := by
  have first : register (renamedHandler path) {} = .ok () { handlers := [renamedHandler path] } :=
    rfl
  have second : registerShared (.named path) { handlers := [renamedHandler path] } =
      .ok () (renamed path) := rfl
  exact .step (.step .empty (.handler rfl) (.inl first)) (.shared (.named path)) (.inl second)

theorem renamed_fits (path : String) : (renamed path).Fits where
  count := by simp [renamed, leBound]
  records := by
    have content : Narrow "content" := by
      unfold Narrow
      decide
    rw [renamed_records]
    refine List.forall_mem_cons.mpr ⟨⟨content, ?_, ?_⟩, List.forall_mem_cons.mpr
      ⟨⟨content, ?_, ?_⟩, by simp⟩⟩ <;> simp [leBound, content]

theorem renamed_complete (path : String) : (renamed path).Complete where
  distinct := by
    simp [Validation.claimedNames, renamed, renamedHandler, Handler.plain, Handler.shared]
  handler := by
    simp [renamed, renamedHandler, Validation.unobjectionable, Handler.plain, Handler.shared,
      Handler.creates, offers, find?]
  root := by simp [renamed]
  content := by
    simp [renamed, renamedHandler, Validation.unobjectionable, offers, find?, Handler.plain]

theorem records_and_tags_of_fed_renamed :
    Reached (renamed "before") ∧ Reached (renamed "after") ∧ (renamed "before").Fits ∧
      (renamed "after").Fits ∧ (renamed "before").fed = (renamed "after").fed ∧
        ∃ r r', (renamed "before").build = .ok r ∧ (renamed "after").build = .ok r' ∧
          r.ofTag? 0 = some (.named "before") ∧ ∃ content, r'.ofTag? 0 = some content ∧
            (renamed "after").stableName content = "content" := by
  have same : (renamed "before").fed = (renamed "after").fed := by
    rw [fed, fed, renamed_records, renamed_records]
  have tags (path : String) : (renamed path).tagOrder = [.named path] :=
    List.mergeSort_singleton _
  have built := (renamed_complete "before").build_eq_ok
  have built' := (renamed_complete "after").build_eq_ok
  obtain ⟨-, -, behind⟩ := records_and_tags_of_fed (renamed_reached "before")
    (renamed_reached "after") built built' (renamed_fits "before") (renamed_fits "after") same
  have first : (renamed "before").tagOrder[0]? = some (.named "before") := by rw [tags]; rfl
  obtain ⟨content, found, -, -, name⟩ := behind 0 (.named "before") first
  exact ⟨renamed_reached _, renamed_reached _, renamed_fits _, renamed_fits _, same, _, _, built,
    built', first, content, found, name.symm⟩

end Builder

end Chronicle
