import Chronicle.Proofs.Walk.Faithful
import Chronicle.Proofs.Walk.WriteSteps

/-!
# Writing produces the written form

A walk that writes succeeds exactly on what the grammar derives, and adds the
derived octets.  The layouts that no reading undoes stay outside the grammar,
so the direction from walks to the grammar is stated for values that do not
reach them.
-/

namespace Chronicle

open Success

namespace Write

variable {c : WriteContext} {deeper : Lower} {s t : WriteState} {type : Ty} {layout : Layout}

/-! ## From the grammar to the walk -/

variable {o : WalkOptions}

def Obeys (o : WalkOptions) (s : WriteState) : Prop :=
  s.out.limit = (ByteWriter.withLimit o.limits.maxSequence).limit

namespace Obeys

theorem narrow (obeys : Obeys o s) : s.out.limit ≤ maxPrefix := by
  rw [obeys]
  exact Nat.min_le_right _ _

theorem admits_iff (obeys : Obeys o s) {n : Nat} : n ≤ s.out.limit ↔ o.Admits n := by
  rw [obeys]
  exact Nat.le_min

theorem after (obeys : Obeys o s) (bs : Bytes) (met : Array Nat) : Obeys o (s.after bs met) :=
  obeys

theorem emit_length (obeys : Obeys o s) {n : Nat} {u : Unit} :
    emit (Writing.length n) s = .ok u t ↔ o.Admits n ∧ t = s.after (leBytes 4 n) s.visited := by
  rw [Write.emit_length obeys.narrow, obeys.admits_iff]

theorem emit_sized (obeys : Obeys o s) {bs : Bytes} {u : Unit} :
    emit (Writing.sized bs) s = .ok u t ↔
      o.Admits bs.length ∧ t = s.after (leBytes 4 bs.length ++ bs) s.visited := by
  rw [Write.emit_sized obeys.narrow, obeys.admits_iff]

end Obeys

theorem whole_of_encodes {v : Value} {bs : Bytes} (assets : c.assets = o.assets)
    (obeys : Obeys o s) (encodes : layout.Encodes o v bs) :
    whole c deeper type layout v s = .ok () (s.after bs s.visited) := by
  cases encodes with
  | nothing v => rw [WriteState.after_nil]; rfl
  | bool b => exact emit_raw.mpr rfl
  | scalar k n => exact emit_raw.mpr rfl
  | text text admits => exact obeys.emit_sized.mpr ⟨admits, rfl⟩
  | octets bs admits => exact obeys.emit_sized.mpr ⟨admits, rfl⟩
  | absent item => exact emit_raw.mpr rfl
  | packed ordered encoded admits =>
      simp only [whole, packed, ordered, encoded]
      exact obeys.emit_sized.mpr ⟨admits, rfl⟩
  | asset resolved named admits =>
      simp only [whole, asset, assets, resolved, named]
      exact obeys.emit_sized.mpr ⟨admits, rfl⟩

theorem value_of_opens {v : Value} {front : Bytes} (obeys : Obeys o s)
    (found : c.registry.writer type = .ok layout) (opens : layout.Opens o v front) :
    value c deeper type v s = each c deeper (layout.parts v) (s.after front s.visited) := by
  cases opens with
  | seq item vs admits =>
      have step : emit (Writing.length vs.length) s = .ok () _ :=
        obeys.emit_length.mpr ⟨admits, rfl⟩
      rw [value_seq found, bind_of_ok step]
      rfl
  | set item order vs admits =>
      have step : emit (Writing.length vs.length) s = .ok () _ :=
        obeys.emit_length.mpr ⟨admits, rfl⟩
      rw [value_set found, bind_of_ok step]
      rfl
  | map keyType valueType order entries admits shaped =>
      have step : emit (Writing.length entries.length) s = .ok () _ :=
        obeys.emit_length.mpr ⟨admits, rfl⟩
      rw [value_map found shaped, bind_of_ok step]
      rfl
  | present item v =>
      have step : emit (Writing.octet 1) s = .ok () (s.after [1] s.visited) := emit_raw.mpr rfl
      have single : each c deeper [(item, v)] = value c deeper item v := bind_pure _
      rw [value_present found, bind_of_ok step, Layout.parts, single]
  | record fields vs full =>
      rw [value_record found full, WriteState.after_nil]
      rfl

mutual

/-- A walk writes what the grammar derives, unless it meets a borrowed object. -/
theorem value_of_written (assets : c.assets = o.assets) (free : c.borrowed = [])
    (obeys : Obeys o s) : ∀ {n : Nat} {type : Ty} {v : Value} {met met' : Array Nat}
    {bs : Bytes} (cs : Bytes), Written c.registry o c.heap n type v met bs met' →
      value c (lower c n) type v (s.after cs met) = .ok () (s.after (cs ++ bs) met')
  | _, _, _, _, _, _, cs, .leaf found encodes => by
      rw [value_of_encodes found encodes, whole_of_encodes assets (obeys.after cs _) encodes,
        WriteState.after_after]
      rfl
  | _, _, _, _, _, _, cs, .parts found opens all => by
      rw [value_of_opens (obeys.after cs _) found opens, WriteState.after_after,
        ← List.append_assoc]
      exact each_of_written assets free obeys _ all
  | _, _, _, _, _, _, cs, .nested found full all => by
      rw [value_nested found, descend_eq_ok]
      refine ⟨_, rfl, ?_⟩
      rw [eachField_eq full]
      exact each_of_written assets free obeys cs all
  | _, _, _, _, _, _, cs, .known found held refers known => by
      rw [value_of_atomic (v := .object _) trivial found, whole_known held refers known,
        WriteState.after_after]
      rfl
  | _, _, _, _, _, _, cs, .fresh found held refers new room content => by
      rw [value_of_atomic (v := .object _) trivial found,
        whole_fresh held refers (Array.idxOf?_eq_none_iff.mpr new)]
      refine ⟨room, by simp [free], _, rfl, ?_⟩
      rw [valueAt_eq, WriteState.after_after, ← List.append_assoc cs (_ ++ _)]
      exact value_of_written assets free obeys _ content

theorem each_of_written (assets : c.assets = o.assets) (free : c.borrowed = [])
    (obeys : Obeys o s) : ∀ {n : Nat} {ps : List (Ty × Value)} {met met' : Array Nat}
    {bs : Bytes} (cs : Bytes), WrittenAll c.registry o c.heap n ps met bs met' →
      each c (lower c n) ps (s.after cs met) = .ok () (s.after (cs ++ bs) met')
  | _, _, _, _, _, cs, .nil => by
      rw [List.append_nil]
      rfl
  | _, _, _, _, _, cs, .cons first rest => by
      rw [each_cons_eq_ok, ← List.append_assoc]
      exact ⟨(), _, value_of_written assets free obeys cs first,
        each_of_written assets free obeys _ rest⟩

end

/-! ## From the walk to the grammar -/

def Yields (c : WriteContext) (o : WalkOptions) (n : Nat) (type : Ty) (v : Value) : Prop :=
  ∀ (s t : WriteState) (u : Unit), Obeys o s → value c (lower c n) type v s = .ok u t →
    ∃ bs, Written c.registry o c.heap n type v s.visited bs t.visited ∧
      t = s.after bs t.visited

variable {n : Nat} {v : Value}

theorem written_of_each {ps : List (Ty × Value)} (yields : ∀ p ∈ ps, Yields c o n p.1 p.2)
    {s t : WriteState} {u : Unit} (obeys : Obeys o s)
    (run : each c (lower c n) ps s = .ok u t) :
    ∃ bs, WrittenAll c.registry o c.heap n ps s.visited bs t.visited ∧
      t = s.after bs t.visited := by
  induction ps generalizing s with
  | nil =>
      obtain ⟨_, rfl⟩ := pure_eq_ok.mp run
      exact ⟨[], .nil, (WriteState.after_nil s).symm⟩
  | cons p rest ih =>
      obtain ⟨_, m, first, run⟩ := each_cons_eq_ok.mp run
      obtain ⟨bs, written, moved⟩ := yields p List.mem_cons_self s m _ obeys first
      have obeys' : Obeys o m := by
        rw [moved]
        exact obeys.after bs _
      obtain ⟨cs, all, done⟩ :=
        ih (fun q member => yields q (List.mem_cons_of_mem _ member)) obeys' run
      refine ⟨bs ++ cs, .cons written all, ?_⟩
      rw [done, moved, WriteState.after_after]
      rfl

theorem encodes_of_whole {u : Unit} (assets : c.assets = o.assets) (obeys : Obeys o s)
    (carries : layout.Carries o v) (atomic : Atomic v) (unshared : v.references = [])
    (run : whole c deeper type layout v s = .ok u t) :
    ∃ bs, layout.Encodes o v bs ∧ t = s.after bs s.visited := by
  cases carries with
  | nothing =>
      obtain ⟨_, rfl⟩ := pure_eq_ok.mp run
      exact ⟨[], .nothing _, (WriteState.after_nil s).symm⟩
  | bool b => exact ⟨_, .bool b, emit_raw.mp run⟩
  | scalar holds => exact ⟨_, .scalar _ _, emit_raw.mp run⟩
  | text text =>
      obtain ⟨admits, moved⟩ := obeys.emit_sized.mp run
      exact ⟨_, .text text admits, moved⟩
  | octets bs =>
      obtain ⟨admits, moved⟩ := obeys.emit_sized.mp run
      exact ⟨_, .octets bs admits, moved⟩
  | absent item => exact ⟨_, .absent item, emit_raw.mp run⟩
  | @packed format d _ =>
      cases ordered : Plain.checkOrder d with
      | error e => simp [whole, packed, ordered, throw_eq_ok] at run
      | ok _ =>
          cases encoded : format.encode d with
          | error reason => simp [whole, packed, ordered, encoded, throw_eq_ok] at run
          | ok bs =>
              simp only [whole, packed, ordered, encoded] at run
              obtain ⟨admits, moved⟩ := obeys.emit_sized.mp run
              exact ⟨_, .packed ordered encoded admits, moved⟩
  | @asset content handle _ =>
      cases resolved : o.assets with
      | none => simp [whole, asset, assets, resolved, throw_eq_ok] at run
      | some resolver =>
          cases named : resolver.pathOf handle with
          | none => simp [whole, asset, assets, resolved, named, throw_eq_ok] at run
          | some path =>
              simp only [whole, asset, assets, resolved, named] at run
              obtain ⟨admits, moved⟩ := obeys.emit_sized.mp run
              exact ⟨_, .asset resolved named admits, moved⟩
  | empty => exact (throw_eq_ok.mp run).elim
  | shared content id | anyShared id => simp [Value.references] at unshared
  | _ => exact atomic.elim

theorem refers_of_whole {u : Unit} {id : Nat} (carries : layout.Carries o (.object id))
    (run : whole c deeper type layout (.object id) s = .ok u t) :
    ∃ cell tag, c.heap[id]? = some cell ∧ layout.Refers c.registry cell.type tag := by
  cases carries with
  | shared content =>
      obtain ⟨cell, found, rfl⟩ := shared_eq_ok run
      exact ⟨cell, [], found, .shared cell.type⟩
  | anyShared =>
      obtain ⟨cell, tag, found, tagged⟩ := anyShared_eq_ok run
      exact ⟨cell, _, found, .anyShared tagged⟩

theorem yields_object {id : Nat} (faithful : c.registry.Faithful o c.heap type (.object id))
    (deeper : ∀ m, n = m + 1 → ∀ type v, c.registry.Faithful o c.heap type v →
      Yields c o m type v) : Yields c o n type (.object id) := by
  intro s t u obeys run
  obtain ⟨layout, symmetric, carries⟩ := faithful.self
  rw [value_of_atomic (v := .object _) trivial symmetric.writer_eq] at run
  obtain ⟨cell, tag, found, refers⟩ := refers_of_whole carries run
  cases place : s.visited.idxOf? id with
  | some number =>
      rw [whole_known found refers place] at run
      injection run with _ moved
      subst moved
      exact ⟨_, .known symmetric.writer_eq found refers place, rfl⟩
  | none =>
      obtain ⟨room, _, walk, level, inner⟩ := (whole_fresh found refers place).mp run
      cases n with
      | zero => simp [lower] at level
      | succ m =>
          injection level with level
          rw [← level, valueAt_eq] at inner
          obtain ⟨bs, written, moved⟩ :=
            deeper m rfl _ _ (faithful.content found) _ t u (obeys.after _ _) inner
          refine ⟨_, .fresh symmetric.writer_eq found refers (Array.idxOf?_eq_none_iff.mp place)
            room written, ?_⟩
          rw [moved, WriteState.after_after]
          rfl

theorem yields_list {vs : List Value} (faithful : c.registry.Faithful o c.heap type (.list vs))
    (deeper : ∀ m, n = m + 1 → ∀ type v, c.registry.Faithful o c.heap type v →
      Yields c o m type v)
    (parts : ∀ layout, c.registry.writer type = .ok layout →
      ∀ p ∈ layout.parts (.list vs), Yields c o n p.1 p.2) : Yields c o n type (.list vs) := by
  intro s t u obeys run
  obtain ⟨layout, ⟨found, _, _⟩, carries⟩ := faithful.self
  have opened : ∀ front, layout.Opens o (.list vs) front →
      ∃ bs, Written c.registry o c.heap n type (.list vs) s.visited bs t.visited ∧
        t = s.after bs t.visited := by
    intro front opens
    rw [value_of_opens obeys found opens] at run
    obtain ⟨bs, all, moved⟩ := written_of_each (parts layout found) (obeys.after _ _) run
    exact ⟨front ++ bs, .parts found opens all, moved.trans (WriteState.after_after ..)⟩
  cases carries with
  | seq item =>
      rw [value_seq found] at run
      obtain ⟨_, _, first, _⟩ := bind_eq_ok.mp run
      exact opened _ (.seq item vs (obeys.emit_length.mp first).1)
  | set item order =>
      rw [value_set found] at run
      obtain ⟨_, _, first, _⟩ := bind_eq_ok.mp run
      exact opened _ (.set item order vs (obeys.emit_length.mp first).1)
  | map keyType valueType order shaped =>
      rw [value_map found shaped] at run
      obtain ⟨_, _, first, _⟩ := bind_eq_ok.mp run
      exact opened _ (.map keyType valueType order vs (obeys.emit_length.mp first).1 shaped)
  | record full => exact opened _ (.record _ vs full)
  | @nested fields _ full =>
      rw [value_nested found, descend_eq_ok] at run
      obtain ⟨walk, level, run⟩ := run
      cases n with
      | zero => simp [lower] at level
      | succ m =>
          injection level with level
          rw [← level, eachField_eq full] at run
          have below : ∀ p ∈ fields.zip vs, Yields c o m p.1 p.2 := fun p member =>
            deeper m rfl _ _ (faithful.part found member)
          obtain ⟨bs, all, moved⟩ := written_of_each below obeys run
          exact ⟨bs, .nested found full all, moved⟩

theorem yields_present {v : Value} (faithful : c.registry.Faithful o c.heap type (.present v))
    (parts : ∀ layout, c.registry.writer type = .ok layout →
      ∀ p ∈ layout.parts (.present v), Yields c o n p.1 p.2) :
    Yields c o n type (.present v) := by
  intro s t u obeys run
  obtain ⟨layout, ⟨found, _, _⟩, carries⟩ := faithful.self
  cases carries with
  | present item =>
      rw [value_of_opens obeys found (.present item v)] at run
      obtain ⟨bs, all, moved⟩ := written_of_each (parts _ found) (obeys.after _ _) run
      exact ⟨_, .parts found (.present item v) all, moved.trans (WriteState.after_after ..)⟩

theorem yields_atomic {v : Value} (assets : c.assets = o.assets)
    (faithful : c.registry.Faithful o c.heap type v) (atomic : Atomic v)
    (unshared : v.references = []) : Yields c o n type v := by
  intro s t u obeys run
  obtain ⟨layout, ⟨found, _, _⟩, carries⟩ := faithful.self
  rw [value_of_atomic atomic found] at run
  obtain ⟨bs, encodes, moved⟩ := encodes_of_whole assets obeys carries atomic unshared run
  rw [moved]
  exact ⟨bs, .leaf found encodes, rfl⟩

theorem yields_of_faithful (assets : c.assets = o.assets) (n : Nat) (type : Ty) (v : Value)
    (faithful : c.registry.Faithful o c.heap type v) : Yields c o n type v := by
  have parts : ∀ layout, c.registry.writer type = .ok layout →
      ∀ p ∈ layout.parts v, Yields c o n p.1 p.2 := fun layout found p member =>
    have smaller : sizeOf p.2 < sizeOf v := Layout.sizeOf_of_mem_parts member
    yields_of_faithful assets n p.1 p.2 (faithful.part found member)
  have deeper : ∀ m, n = m + 1 → ∀ type v, c.registry.Faithful o c.heap type v →
      Yields c o m type v := fun m below type v ok =>
    yields_of_faithful assets m type v ok
  cases v with
  | list vs => exact yields_list faithful deeper parts
  | present v => exact yields_present faithful parts
  | object id => exact yields_object faithful deeper
  | entry k w =>
      obtain ⟨_, _, carries⟩ := faithful.self
      cases carries
  | _ => exact yields_atomic assets faithful trivial rfl
termination_by (n, sizeOf v)

end Write

/-! ## Whole graphs -/

variable {r : Registry} {o : WalkOptions} {g : Graph}

theorem Registry.snapshot_eq_ok {counter next : Nat} {bs : Bytes} :
    r.snapshot o g counter = (.ok bs, next) ↔ ∃ s, r.writeGraph o g counter = .ok () s ∧
      s.out.toBytes = bs ∧ s.counter = next := by
  unfold Registry.snapshot
  cases r.writeGraph o g counter with
  | ok u s => simp
  | error e s => simp

theorem Registry.writeGraph_of_written {bs : Bytes} {met : Array Nat} (free : g.borrowed = [])
    (written : Written r o g.heap o.limits.maxDepth g.type g.root #[] bs met) (counter : Nat) :
    r.writeGraph o g counter =
      .ok () (WriteState.after { out := ByteWriter.withLimit o.limits.maxSequence, counter }
        bs met) := by
  rw [Registry.writeGraph, Write.walk, Write.valueAt_eq]
  have obeys : Write.Obeys o { out := ByteWriter.withLimit o.limits.maxSequence, counter } := rfl
  exact Write.value_of_written (c := r.writeContext o g) rfl free obeys [] written

theorem Registry.snapshot_of_written {bs : Bytes} {met : Array Nat} (free : g.borrowed = [])
    (written : Written r o g.heap o.limits.maxDepth g.type g.root #[] bs met) (counter : Nat) :
    r.snapshot o g counter = (.ok bs, counter) :=
  Registry.snapshot_eq_ok.mpr
    ⟨_, writeGraph_of_written free written counter, ByteWriter.toBytes_append _ bs, rfl⟩

theorem Registry.written_of_writeGraph {counter : Nat} {s : WriteState} {u : Unit}
    (faithful : r.Faithful o g.heap g.type g.root) (run : r.writeGraph o g counter = .ok u s) :
    Written r o g.heap o.limits.maxDepth g.type g.root #[] s.out.toBytes s.visited := by
  rw [Registry.writeGraph, Write.walk, Write.valueAt_eq] at run
  have obeys : Write.Obeys o { out := ByteWriter.withLimit o.limits.maxSequence, counter } := rfl
  obtain ⟨bs, written, moved⟩ := Write.yields_of_faithful (c := r.writeContext o g) rfl
    o.limits.maxDepth g.type g.root faithful _ s u obeys run
  have octets : s.out.toBytes = bs := by
    rw [moved]
    exact ByteWriter.toBytes_append _ bs
  rw [octets]
  exact written

end Chronicle
