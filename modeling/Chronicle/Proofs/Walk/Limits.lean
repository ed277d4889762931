import Chronicle.Proofs.Walk.Refusing
import Chronicle.Proofs.Walk.RoundTrip

/-!
# Limits decide acceptance only

The grammar mentions limits at two kinds of places: at lengths and at levels.  A
derivation under some limits is therefore a derivation under other limits up to
the first place where one of these does not admit it, and there both walks stop.
-/

namespace Chronicle

open Success Read

def WalkOptions.under (o : WalkOptions) (limits : WalkLimits) : WalkOptions := { o with limits }

variable {r : Registry} {o : WalkOptions} {h : Heap} {n : Nat} {type : Ty} {v : Value}
  {layout : Layout} {met met' : Array Nat} {front bs : Bytes} {e : WalkError}

theorem Layout.Carries.under (carries : layout.Carries o v) (limits : WalkLimits) :
    layout.Carries (o.under limits) v := by
  cases carries <;> constructor <;> assumption

theorem Registry.Faithful.under (faithful : r.Faithful o h type v) (limits : WalkLimits) :
    r.Faithful (o.under limits) h type v := by
  intro s u place
  obtain ⟨layout, symmetric, carries⟩ := faithful s u place
  exact ⟨layout, symmetric, carries.under limits⟩

/-! ## Refusals by layout -/

theorem refuses_of_byLayout (symmetric : r.Symmetric type layout)
    (unlike : ∀ fields, layout ≠ .record fields) (breach : o.limits.Breach e)
    (writes : ∀ {s : WriteState} (cs : Bytes), Write.Obeys o s →
      Fails e (Write.value (r.freeContext o h) (Write.lower (r.freeContext o h) n) type v
        (s.after cs met)))
    (reads : ∀ {s : ReadState} {f : Nat → Nat} {octets : Nat} {old : Value}, s.Begins o bs →
      s.input.remaining ≤ octets → r.Fillable type old → Mirror h f met s →
      Falters e (byLayout (r.readContext o) (lowerAt (r.readContext o) n)
        (freshAt (r.readContext o) (lowerAt (r.readContext o) n) octets) type old layout s)) :
    Refuses r o h n type v met bs e := by
  refine ⟨breach, symmetric.makes, writes, ?_⟩
  intro s f octets old begins room fillable mirror
  rw [value_eq, inPlace_eq_byLayout symmetric.reader_eq unlike]
  exact reads begins room fillable mirror

theorem admits_or_refuses (symmetric : r.Symmetric type layout)
    (unlike : ∀ fields, layout ≠ .record fields) {limits : WalkLimits} {count : Nat} {tail : Bytes}
    (admits : o.Admits count)
    (writes : ∀ {s : WriteState}, Write.Obeys (o.under limits) s → limits.maxSequence < count →
      Fails (.lengthLimit count limits.maxSequence)
        (Write.value (r.freeContext (o.under limits) h)
          (Write.lower (r.freeContext (o.under limits) h) n) type v s))
    (reads : ∀ {s : ReadState} {lower : Read.Lower} {fresh : Ty → Read Value} {old : Value},
      s.Begins (o.under limits) (leBytes 4 count ++ tail) → limits.maxSequence < count →
      Falters (.lengthLimit count limits.maxSequence)
        (byLayout (r.readContext (o.under limits)) lower fresh type old layout s)) :
    (o.under limits).Admits count ∨
      ∃ e, Refuses r (o.under limits) h n type v met (leBytes 4 count ++ tail) e := by
  rcases Nat.lt_or_ge limits.maxSequence count with above | within
  · exact .inr ⟨_, refuses_of_byLayout symmetric unlike (.length above)
      (fun cs obeys => writes (obeys.after cs met) above) fun begins _ _ _ => reads begins above⟩
  · exact .inl ⟨within, admits.2⟩

/-- A value without parts has the same octets under other limits, unless its
length is above the limit. -/
theorem Layout.Encodes.under (symmetric : r.Symmetric type layout) (encodes : layout.Encodes o v bs)
    (limits : WalkLimits) : layout.Encodes (o.under limits) v bs ∨
      ∃ e, Refuses r (o.under limits) h n type v met bs e := by
  let c := r.freeContext (o.under limits) h
  have unfolded : Write.Atomic v →
      Write.value c (Write.lower c n) type v = Write.whole c (Write.lower c n) type layout v :=
    fun atomic => Write.value_of_atomic atomic symmetric.writer_eq
  cases encodes with
  | nothing v => exact .inl (.nothing v)
  | bool b => exact .inl (.bool b)
  | scalar k m => exact .inl (.scalar k m)
  | absent item => exact .inl (.absent item)
  | text text admits =>
      refine .imp_left (.text text) (admits_or_refuses symmetric (by simp) admits ?_ ?_)
      · intro s obeys above
        rw [unfolded trivial]
        exact Write.emit_sized_fails obeys above admits.2
      · intro s _ _ _ begins above
        exact (keeping_falters (take_fails Reading.text_guards begins admits.2 above)).bind _
  | octets octets admits =>
      refine .imp_left (.octets octets) (admits_or_refuses symmetric (by simp) admits ?_ ?_)
      · intro s obeys above
        rw [unfolded trivial]
        exact Write.emit_sized_fails obeys above admits.2
      · intro s _ _ _ begins above
        exact (keeping_falters (take_fails Reading.sized_guards begins admits.2 above)).bind _
  | packed ordered encoded admits =>
      refine .imp_left (.packed ordered encoded)
        (admits_or_refuses symmetric (by simp) admits ?_ ?_)
      · intro s obeys above
        rw [unfolded trivial]
        simp only [Write.whole, Write.packed, ordered, encoded]
        exact Write.emit_sized_fails obeys above admits.2
      · intro s _ _ _ begins above
        exact keeping_falters ((take_fails Reading.sized_guards begins admits.2 above).bind _)
  | @asset content handle resolver path resolved named admits =>
      refine .imp_left (.asset resolved named) (admits_or_refuses symmetric (by simp) admits ?_ ?_)
      · intro s obeys above
        rw [unfolded trivial]
        have assets : c.assets = some resolver := resolved
        simp only [Write.whole, Write.asset, assets, named]
        exact Write.emit_sized_fails obeys above admits.2
      · intro s _ _ _ begins above
        exact keeping_falters ((take_fails Reading.text_guards begins admits.2 above).bind _)

/-- A value with parts opens with the same octets under other limits, unless it
has too many of them. -/
theorem Layout.Opens.under (symmetric : r.Symmetric type layout) (opens : layout.Opens o v front)
    (limits : WalkLimits) (bs : Bytes) : layout.Opens (o.under limits) v front ∨
      ∃ e, Refuses r (o.under limits) h n type v met (front ++ bs) e := by
  have writer_eq : (r.freeContext (o.under limits) h).registry.writer type = .ok layout :=
    symmetric.writer_eq
  cases opens with
  | present item v => exact .inl (.present item v)
  | record fields vs full => exact .inl (.record fields vs full)
  | seq item vs admits =>
      refine .imp_left (.seq item vs) (admits_or_refuses symmetric nofun admits ?_ ?_)
      · intro s obeys above
        rw [Write.value_seq writer_eq]
        exact (Write.emit_length_fails obeys above admits.2).bind _
      · intro s _ _ _ begins above
        exact (keeping_falters (take_fails Reading.length_guards begins admits.2 above)).bind _
  | set item order vs admits =>
      refine .imp_left (.set item order vs) (admits_or_refuses symmetric nofun admits ?_ ?_)
      · intro s obeys above
        rw [Write.value_set writer_eq]
        exact (Write.emit_length_fails obeys above admits.2).bind _
      · intro s _ _ _ begins above
        exact (keeping_falters (take_fails Reading.length_guards begins admits.2 above)).bind _
  | map keyType valueType order entries admits shaped =>
      refine .imp_left (fun admits' => .map keyType valueType order entries admits' shaped)
        (admits_or_refuses symmetric nofun admits ?_ ?_)
      · intro s obeys above
        rw [Write.value_map writer_eq shaped]
        exact (Write.emit_length_fails obeys above admits.2).bind _
      · intro s _ _ _ begins above
        exact (keeping_falters (take_fails Reading.length_guards begins admits.2 above)).bind _

/-! ## Refusals of parts -/

theorem byLayout_falters {octets : Nat} {next : Ty → Read Value} {lower : Read.Lower} {old : Value}
    {s : ReadState} {f : Nat → Nat} (renews : Renews r o h n octets next)
    (declines : Declines r o h n octets next) (opens : layout.Opens o v front)
    (carries : layout.Carries o v) (unlike : ∀ fields, layout ≠ .record fields)
    (plain : ∀ p ∈ layout.parts v, p.2.orderingKey = p.2)
    (all : RefusesAll r o h n (layout.parts v) met bs e) (begins : s.Begins o (front ++ bs))
    (room : s.input.remaining ≤ octets + 1) (mirror : Mirror h f met s) :
    Falters e (byLayout (r.readContext o) lower next type old layout s) := by
  obtain ⟨m, moved⟩ := begins.left.consumes
  have opened := Restored.of_consumes mirror moved
  have after := begins.right moved.passes
  have taken := moved.passes.remaining_le
  cases opens with
  | seq item vs admits =>
      have count := take_length.mpr ⟨admitted begins admits, moved⟩
      rw [length_leBytes] at taken
      exact .bind_of_ok (keeping_eq_ok.mpr count)
        (items_falters renews declines all #[] after (by omega) opened.mirror)
  | set item order vs admits =>
      have same : ∀ w ∈ vs, w.orderingKey = w := fun w inside =>
        plain (item, w) (List.mem_map_of_mem inside)
      have count := take_length.mpr ⟨admitted begins admits, moved⟩
      rw [length_leBytes] at taken
      exact .bind_of_ok (keeping_eq_ok.mpr count) (ascendingItems_falters renews declines same all
        #[] (ascending_of_set carries same) after (by omega) opened.mirror)
  | map keyType valueType order entries admits shaped =>
      have count := take_length.mpr ⟨admitted begins admits, moved⟩
      rw [length_leBytes] at taken
      exact .bind_of_ok (keeping_eq_ok.mpr count) (ascendingEntries_falters renews declines shaped
        all #[] (ascending_of_map carries) after (by omega) opened.mirror)
  | present item w =>
      cases all with
      | here _ refuses =>
          have octet : take Reading.octet s = .ok 1 m := take_octet.mpr moved
          have fewer : m.input.remaining ≤ octets := by
            rw [List.length_singleton] at taken
            omega
          exact keeping_falters (.bind_of_ok octet
            ((declines refuses after.left fewer opened.mirror).bind _))
      | later _ _ rest => cases rest
  | record fields vs full => exact absurd rfl (unlike fields)

theorem refuses_parts (symmetric : r.Symmetric type layout) (carries : layout.Carries o v)
    (opens : layout.Opens o v front) (plain : ∀ p ∈ layout.parts v, p.2.orderingKey = p.2)
    (all : RefusesAll r o h n (layout.parts v) met bs e) :
    Refuses r o h n type v met (front ++ bs) e := by
  refine ⟨all.breach, symmetric.makes, ?_, ?_⟩
  · intro s cs obeys
    rw [Write.value_of_opens (c := r.freeContext o h) (obeys.after cs met) symmetric.writer_eq
      opens, WriteState.after_after]
    exact Write.each_fails all _ obeys
  · intro s f octets old begins room fillable mirror
    by_cases record : ∃ fields, layout = .record fields
    · obtain ⟨fields, rfl⟩ := record
      cases opens with
      | record _ vs full =>
          obtain ⟨olds, rfl, filled⟩ := fillable.fields symmetric.reader_eq (.inl rfl)
          have inner := eachField_falters fills_value balks_value full all filled begins room mirror
          rw [value_eq] at inner ⊢
          rw [inPlace_record_eq symmetric.reader_eq]
          exact asRecord_falters inner
    · have unlike : ∀ fields, layout ≠ .record fields := fun fields same => record ⟨fields, same⟩
      obtain ⟨rest, start⟩ := begins.starts
      have front_pos := opens.length_pos unlike
      cases octets with
      | zero =>
          rw [ByteReader.remaining, start] at room
          simp only [List.length_append] at room
          omega
      | succ octets =>
          rw [value_eq, inPlace_eq_byLayout symmetric.reader_eq unlike]
          exact byLayout_falters renews_create declines_create opens carries unlike plain all begins
            room mirror

theorem refuses_nested {fields : List Ty} {vs : List Value}
    (symmetric : r.Symmetric type (.nested fields)) (full : fields.length = vs.length)
    (all : RefusesAll r o h n (fields.zip vs) met bs e) :
    Refuses r o h (n + 1) type (.list vs) met bs e := by
  refine refuses_of_byLayout symmetric nofun all.breach ?_ ?_
  · intro s cs obeys
    rw [Write.value_nested symmetric.writer_eq, Write.lower, Write.descend, Write.eachField_eq full]
    exact Write.each_fails all cs obeys
  · intro s f octets old begins room fillable mirror
    obtain ⟨olds, rfl, filled⟩ := fillable.fields symmetric.reader_eq (.inr rfl)
    rw [byLayout, lowerAt, descend]
    exact asRecord_falters
      (eachField_falters fills_valueAt balks_valueAt full all filled begins room mirror)

/-! ## Refusals at a level -/

theorem refuses_nested_at_bottom {fields : List Ty} {vs : List Value}
    (symmetric : r.Symmetric type (.nested fields)) :
    Refuses r o h 0 type (.list vs) met bs (.depthExceeded o.limits.maxDepth) := by
  refine refuses_of_byLayout symmetric nofun .depth ?_ ?_
  · intro s cs _
    rw [Write.value_nested symmetric.writer_eq]
    exact ⟨_, rfl⟩
  · intro s f octets old _ _ _ _
    exact ⟨old, s, rfl⟩

variable {id : Nat} {cell : Cell} {tag : Bytes}

theorem refuses_object (tags : r.tags.length ≤ leBound 4) (symmetric : r.Symmetric type layout)
    (found : h[id]? = some cell) (refers : layout.Refers r cell.type tag) (new : id ∉ met)
    (few : met.size < leBound 4) (makes : r.Makes cell.type) (breach : o.limits.Breach e)
    (writes : ∀ {s : WriteState} (cs : Bytes), Write.Obeys o s →
      Fails e (Write.descend (r.freeContext o h) (Write.lower (r.freeContext o h) n)
        (fun walk => walk cell.type cell.content) (s.after cs (met.push id))))
    (reads : ∀ {s : ReadState} {f : Nat → Nat} {old : Value}, s.Begins o bs →
      r.Fillable cell.type old → Mirror h f (met.push id) s →
      Falters e (descend (r.readContext o) (lowerAt (r.readContext o) n) old
        (fun walk => walk cell.type old) s)) :
    Refuses r o h n type (.object id) met
      (newMarker :: Scalar.u32.encode met.size ++ tag ++ bs) e := by
  refine refuses_of_byLayout symmetric refers.ne_record breach ?_ ?_
  · intro s cs obeys
    rw [Write.value_of_atomic (v := .object _) trivial symmetric.writer_eq,
      Write.whole_fresh_eq found refers (Array.idxOf?_eq_none_iff.mpr new) few
        (by simp [Registry.freeContext]),
      WriteState.after_after]
    exact writes _ obeys
  · intro s f octets old begins _ _ mirror
    obtain ⟨m, moved⟩ := begins.left.consumes
    have front := Restored.of_consumes mirror moved
    have after := begins.right moved.passes
    obtain ⟨blank, heap, made, fillable, grown⟩ := makes.makeBlank_eq_ok m.heap
    rw [byLayout_fresh_eq tags refers few moved mirror, ← moved.nextNumber_eq]
    refine keeping_falters (object_fails made ?_)
    exact reads ⟨after.starts, after.limit_eq⟩ fillable
      (mirror_push front.mirror _ grown found new few)

theorem refuses_fresh (tags : r.tags.length ≤ leBound 4) (symmetric : r.Symmetric type layout)
    (found : h[id]? = some cell) (refers : layout.Refers r cell.type tag) (new : id ∉ met)
    (few : met.size < leBound 4)
    (content : Refuses r o h n cell.type cell.content (met.push id) bs e) :
    Refuses r o h (n + 1) type (.object id) met
      (newMarker :: Scalar.u32.encode met.size ++ tag ++ bs) e := by
  refine refuses_object tags symmetric found refers new few content.makes content.breach ?_ ?_
  · intro s cs obeys
    rw [Write.lower, Write.descend, Write.valueAt_eq]
    exact content.writes cs obeys
  · intro s f old begins fillable mirror
    rw [lowerAt, descend, valueAt_eq]
    exact content.reads begins (Nat.le_refl _) fillable mirror

theorem refuses_fresh_at_bottom (tags : r.tags.length ≤ leBound 4)
    (symmetric : r.Symmetric type layout) (found : h[id]? = some cell)
    (refers : layout.Refers r cell.type tag) (new : id ∉ met) (few : met.size < leBound 4)
    (makes : r.Makes cell.type) : Refuses r o h 0 type (.object id) met
      (newMarker :: Scalar.u32.encode met.size ++ tag ++ bs) (.depthExceeded o.limits.maxDepth) :=
  refuses_object tags symmetric found refers new few makes .depth
    (fun _ _ => ⟨_, rfl⟩) (fun _ _ _ => ⟨_, _, rfl⟩)

/-! ## Other limits -/

mutual

/-- A written form stays one under other limits and with other levels to open,
or both walks stop with the same error. -/
theorem Written.under (tags : r.tags.length ≤ leBound 4) (limits : WalkLimits) : ∀ {n : Nat}
    {type : Ty} {v : Value} {met met' : Array Nat} {bs : Bytes},
    Written r o h n type v met bs met' → r.Faithful o h type v → ∀ (levels : Nat),
    Written r (o.under limits) h levels type v met bs met' ∨
      ∃ e, Refuses r (o.under limits) h levels type v met bs e
  | _, _, _, _, _, _, .leaf found encodes, faithful, _ =>
      (encodes.under (faithful.of_writer found).1 limits).imp_left (.leaf found)
  | _, _, _, _, _, _, .parts found opens all, faithful, levels => by
      obtain ⟨symmetric, carries⟩ := faithful.of_writer found
      rcases opens.under symmetric limits _ with opens' | refused
      · rcases all.under tags limits (fun p member => faithful.part found member) levels with
          all' | ⟨e, refused⟩
        · exact .inl (.parts found opens' all')
        · refine .inr ⟨e, refuses_parts symmetric (carries.under limits) opens' ?_ refused⟩
          intro p member
          obtain ⟨_, _, carries⟩ := (faithful.part found member).self
          exact carries.orderingKey_eq
      · exact .inr refused
  | _, _, _, _, _, _, .nested found full all, faithful, levels => by
      have symmetric := (faithful.of_writer found).1
      cases levels with
      | zero => exact .inr ⟨_, refuses_nested_at_bottom symmetric⟩
      | succ levels =>
          exact (all.under tags limits (fun p member => faithful.part found member) levels).imp
            (.nested found full) fun ⟨e, refused⟩ => ⟨e, refuses_nested symmetric full refused⟩
  | _, _, _, _, _, _, .known found held refers known, _, _ => .inl (.known found held refers known)
  | _, _, _, _, _, _, .fresh found held refers new room content, faithful, levels => by
      have symmetric := (faithful.of_writer found).1
      have inner := faithful.content held
      cases levels with
      | zero =>
          obtain ⟨_, inside, _⟩ := inner.self
          exact .inr ⟨_, refuses_fresh_at_bottom tags symmetric held refers new room inside.makes⟩
      | succ levels =>
          exact (content.under tags limits inner levels).imp (.fresh found held refers new room)
            fun ⟨e, refused⟩ => ⟨e, refuses_fresh tags symmetric held refers new room refused⟩

theorem WrittenAll.under (tags : r.tags.length ≤ leBound 4) (limits : WalkLimits) : ∀ {n : Nat}
    {ps : List (Ty × Value)} {met met' : Array Nat} {bs : Bytes},
    WrittenAll r o h n ps met bs met' → (∀ p ∈ ps, r.Faithful o h p.1 p.2) → ∀ (levels : Nat),
    WrittenAll r (o.under limits) h levels ps met bs met' ∨
      ∃ e, RefusesAll r (o.under limits) h levels ps met bs e
  | _, _, _, _, _, .nil, _, _ => .inl .nil
  | _, _, _, _, _, .cons first rest, faithful, levels => by
      have head := faithful _ List.mem_cons_self
      rcases first.under tags limits head levels with first' | ⟨e, refused⟩
      · rcases rest.under tags limits (fun q member => faithful q (List.mem_cons_of_mem _ member))
          levels with rest' | ⟨e, refused⟩
        · exact .inl (.cons first' rest')
        · exact .inr ⟨e, .later first' (first'.restores tags (head.under limits)) refused⟩
      · exact .inr ⟨e, .here _ refused⟩

end

variable {g : Graph}

theorem Refuses.snapshot (free : g.borrowed = [])
    (refused : Refuses r o g.heap o.limits.maxDepth g.type g.root #[] bs e) (counter : Nat) :
    (r.snapshot o g counter).1 = .error e := by
  have context : r.writeContext o g = r.freeContext o g.heap := by
    rw [Registry.writeContext, free]
    rfl
  have obeys : Write.Obeys o { out := ByteWriter.withLimit o.limits.maxSequence, counter } := rfl
  obtain ⟨t, run⟩ := refused.writes [] obeys
  have fails : r.writeGraph o g counter = .error e t := by
    rw [Registry.writeGraph, Write.walk, Write.valueAt_eq, context]
    exact run
  rw [Registry.snapshot, fails]

theorem Refuses.restore (refused : Refuses r o h o.limits.maxDepth type v #[] bs e) :
    r.restore o type bs = .error e := by
  let start : ReadState := { input := { rest := bs, limit := o.limits.maxSequence } }
  have begins : start.Begins o bs := ⟨⟨[], (List.append_nil bs).symm⟩, rfl⟩
  have mirror : Mirror h (fun id => id) #[] start := by
    constructor <;> simp [start]
  obtain ⟨t, run⟩ := create_fails balks_valueAt refused begins (Nat.le_refl _) mirror
  have fails : r.readGraph o type bs = .error e t := run
  rw [Registry.restore, fails]

/-- Limits decide acceptance only.  Under other limits than those it was written
under, a faithful graph has the same snapshot, which restores, or the snapshot
fails at a limit and restoring the octets fails with the very same error. -/
theorem snapshot_restore_under (tags : r.tags.length ≤ leBound 4)
    (faithful : r.Faithful o g.heap g.type g.root) (free : g.borrowed = []) {counter next : Nat}
    {bs : Bytes} (written : r.snapshot o g counter = (.ok bs, next)) (limits : WalkLimits)
    (counter' : Nat) :
    (r.snapshot (o.under limits) g counter' = (.ok bs, counter') ∧
      ∃ g' f, r.restore (o.under limits) g.type bs = .ok g' ∧ g.Isomorphism g' f) ∨
    ∃ e, limits.Breach e ∧ (r.snapshot (o.under limits) g counter').1 = .error e ∧
      r.restore (o.under limits) g.type bs = .error e := by
  obtain ⟨s, run, rfl, _⟩ := Registry.snapshot_eq_ok.mp written
  have form := Registry.written_of_writeGraph faithful run
  rcases form.under tags limits faithful limits.maxDepth with form' | ⟨e, refused⟩
  · exact .inl ⟨Registry.snapshot_of_written free form' counter',
      form'.restore tags (faithful.under limits)⟩
  · exact .inr ⟨e, refused.breach, refused.snapshot free counter', refused.restore⟩

theorem snapshot_restore_under_knot :
    knotRegistry.tags.length ≤ leBound 4 ∧
      knotRegistry.Faithful {} knotGraph.heap knotGraph.type knotGraph.root ∧
      knotGraph.borrowed = [] ∧ knotRegistry.snapshot {} knotGraph = (.ok knotOctets, 0) ∧
      ∀ limits : WalkLimits,
        (knotRegistry.snapshot (WalkOptions.under {} limits) knotGraph = (.ok knotOctets, 0) ∧
          ∃ g' f, knotRegistry.restore (WalkOptions.under {} limits) knotGraph.type knotOctets =
            .ok g' ∧ knotGraph.Isomorphism g' f) ∨
        ∃ e, limits.Breach e ∧
          (knotRegistry.snapshot (WalkOptions.under {} limits) knotGraph).1 = .error e ∧
          knotRegistry.restore (WalkOptions.under {} limits) knotGraph.type knotOctets = .error e :=
  ⟨by decide, knot_faithful, rfl, knot_snapshot, fun limits =>
    snapshot_restore_under (by decide) knot_faithful rfl knot_snapshot limits 0⟩

end Chronicle
