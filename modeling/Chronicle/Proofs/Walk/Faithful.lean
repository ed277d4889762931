import Chronicle.Proofs.Heap
import Chronicle.Proofs.Success
import Chronicle.Proofs.Walk.Grammar
import Chronicle.Proofs.Walk.Isomorphism
import Mathlib.Data.List.Chain

/-!
# Values that survive

A value comes back from its written form when at each place in it the type is
written and read by one layout, fresh values of the type can be made, and the
value is one that the layout can carry.  Places are the parts of a value, their
parts in turn, and the contents of the objects that are referred to.
-/

namespace Chronicle

open Success

/-! ## Places in a value -/

inductive Registry.Occurs (r : Registry) (h : Heap) (type : Ty) (v : Value) : Ty → Value → Prop
  | self : Occurs r h type v type v
  | part {s : Ty} {u : Value} {layout : Layout} {p : Ty × Value} : Occurs r h type v s u →
      r.writer s = .ok layout → p ∈ layout.parts u → Occurs r h type v p.1 p.2
  | content {s : Ty} {id : Nat} {cell : Cell} : Occurs r h type v s (.object id) →
      h[id]? = some cell → Occurs r h type v cell.type cell.content

theorem Registry.Occurs.trans {r : Registry} {h : Heap} {type s s' : Ty} {v u u' : Value}
    (outer : r.Occurs h type v s u) (inner : r.Occurs h s u s' u') :
    r.Occurs h type v s' u' := by
  induction inner with
  | self => exact outer
  | part _ written member ih => exact .part ih written member
  | content _ found ih => exact .content ih found

theorem Registry.Occurs.of_closed {r : Registry} {h : Heap} {type s : Ty} {v u : Value}
    {places : Ty → Value → Prop} (start : places type v)
    (parts : ∀ s u, places s u → ∃ layout, r.writer s = .ok layout ∧
      ∀ p ∈ layout.parts u, places p.1 p.2)
    (contents : ∀ s id cell, places s (.object id) → h[id]? = some cell →
      places cell.type cell.content) (place : r.Occurs h type v s u) : places s u := by
  induction place with
  | self => exact start
  | part _ found member ih =>
      obtain ⟨layout, written, closed⟩ := parts _ _ ih
      obtain rfl := Except.ok.inj (written.symm.trans found)
      exact closed _ member
  | content _ found ih => exact contents _ _ _ ih found

/-! ## Fresh values -/

def Layout.Replaces : Layout → Prop
  | .nothing | .record _ | .nested _ | .counter => False
  | _ => True

namespace Registry

mutual

inductive Fillable (r : Registry) : Ty → Value → Prop
  | nothing {type : Ty} : r.reader type = .ok .nothing → Fillable r type .unit
  | record {type : Ty} {fields : List Ty} {vs : List Value} :
      r.reader type = .ok (.record fields) → FillableAll r fields vs →
      Fillable r type (.list vs)
  | nested {type : Ty} {fields : List Ty} {vs : List Value} :
      r.reader type = .ok (.nested fields) → FillableAll r fields vs →
      Fillable r type (.list vs)
  | replaced {type : Ty} {layout : Layout} (v : Value) :
      r.reader type = .ok layout → layout.Replaces → Fillable r type v

inductive FillableAll (r : Registry) : List Ty → List Value → Prop
  | nil : FillableAll r [] []
  | cons {type : Ty} {types : List Ty} {v : Value} {rest : List Value} :
      Fillable r type v → FillableAll r types rest → FillableAll r (type :: types) (v :: rest)

end

theorem Fillable.fields {r : Registry} {type : Ty} {fields : List Ty} {layout : Layout} {v : Value}
    (fillable : r.Fillable type v) (found : r.reader type = .ok layout)
    (shape : layout = .record fields ∨ layout = .nested fields) :
    ∃ vs, v = .list vs ∧ r.FillableAll fields vs := by
  cases fillable with
  | nothing other =>
      obtain rfl := Except.ok.inj (other.symm.trans found)
      rcases shape with same | same <;> contradiction
  | record other all | nested other all =>
      obtain rfl := Except.ok.inj (other.symm.trans found)
      rcases shape with ⟨⟨⟩⟩ | ⟨⟨⟩⟩
      exact ⟨_, rfl, all⟩
  | replaced _ other replaces =>
      obtain rfl := Except.ok.inj (other.symm.trans found)
      rcases shape with rfl | rfl <;> exact replaces.elim

inductive Makes (r : Registry) : Ty → Prop
  | template {type : Ty} {t : Template} : r.initializer type = .ok (.template t) →
      (∀ h, r.Fillable type (t.make h).1) → Makes r type
  | placeholder {content : Ty} : r.initializer (.shared content) = .ok .placeholder →
      (∀ id, r.Fillable (.shared content) (.object id)) → Makes r content →
      Makes r (.shared content)

end Registry

theorem Registry.Makes.makeBlank_eq_ok {r : Registry} {type : Ty} (makes : r.Makes type)
    (h : Heap) : ∃ blank h', r.makeBlank type h = .ok blank h' ∧ r.Fillable type blank ∧
      h.Extends h' := by
  induction makes generalizing h with
  | @template type t found fillable =>
      refine ⟨(t.make h).1, (t.make h).2, ?_, fillable h, t.extends_make h⟩
      rw [Registry.makeBlank.eq_def, found]
      rfl
  | @placeholder content found fillable _ ih =>
      obtain ⟨blank, h', made, _, grown⟩ := ih h
      refine ⟨_, _, ?_, fillable h'.size, grown.trans (Heap.extends_allocate h' content blank)⟩
      rw [Registry.makeBlank, found]
      exact bind_eq_ok.mpr ⟨_, _, rfl, bind_eq_ok.mpr ⟨blank, h', made, rfl⟩⟩

/-! ## Faithful values -/

/-- The values that a layout carries there and back.  Keys are in order and
refer to no object, numbers fit their field, and what a blob or a path stands
for is what was put into it. -/
inductive Layout.Carries (o : WalkOptions) : Layout → Value → Prop
  | nothing : Carries o .nothing .unit
  | bool (b : Bool) : Carries o .bool (.bool b)
  | scalar {s : Scalar} {n : Int} : s.Holds n → Carries o (.scalar s) (.int n)
  | text (s : String) : Carries o .text (.text s)
  | octets (bs : Bytes) : Carries o .octets (.bytes bs)
  | seq (item : Ty) (vs : List Value) : Carries o (.seq item) (.list vs)
  | set (item : Ty) (order : KeyOrder) {vs : List Value} : vs.IsChain order.Less →
      (∀ v ∈ vs, v.references = []) → Carries o (.set item order) (.list vs)
  | map (keyType valueType : Ty) (order : KeyOrder) {entries : List Value} :
      (∀ e ∈ entries, e.IsEntry) →
      entries.IsChain (fun e e' => order.Less e.orderingKey e'.orderingKey) →
      (∀ e ∈ entries, e.orderingKey.references = []) →
      Carries o (.map keyType valueType order) (.list entries)
  | absent (item : Ty) : Carries o (.option item) .absent
  | present (item : Ty) (v : Value) : Carries o (.option item) (.present v)
  | record {fields : List Ty} {vs : List Value} : fields.length = vs.length →
      Carries o (.record fields) (.list vs)
  | nested {fields : List Ty} {vs : List Value} : fields.length = vs.length →
      Carries o (.nested fields) (.list vs)
  | shared (content : Ty) (id : Nat) : Carries o (.shared content) (.object id)
  | anyShared (id : Nat) : Carries o .anyShared (.object id)
  | empty : Carries o .anyShared .nothing
  | packed {format : Plain.PackedFormat} {d : Plain.Datum} :
      (∀ bs, format.encode d = .ok bs → format.decode bs = .ok d) →
      Carries o (.packed format) (.plain d)
  | asset {content : Ty} {handle : AssetHandle} :
      (∀ resolver path, o.assets = some resolver → resolver.pathOf handle = some path →
        resolver.load content path = some ⟨handle, content⟩) →
      Carries o (.asset content) (.asset handle)

namespace Registry

structure Symmetric (r : Registry) (type : Ty) (layout : Layout) : Prop where
  writer_eq : r.writer type = .ok layout
  reader_eq : r.reader type = .ok layout
  makes : r.Makes type

/-- A handler that makes one fixed value, which reading replaces, and that writes
and reads by one layout. -/
theorem Symmetric.of_handler {r : Registry} {type : Ty} {layout : Layout} {h : Handler}
    {blank : Value} (found : r.find? type = some h)
    (makes : h.initializer = some (.template (.value blank))) (writes : h.writer = some layout)
    (reads : h.reader = some layout) (replaces : layout.Replaces) : r.Symmetric type layout := by
  have reader_eq := reader_of_find? found reads
  have initializer_eq := initializer_of_find? found makes
  exact ⟨writer_of_find? found writes, reader_eq,
    .template initializer_eq fun _ => .replaced _ reader_eq replaces⟩

def Faithful (r : Registry) (o : WalkOptions) (h : Heap) (type : Ty) (v : Value) : Prop :=
  ∀ s u, r.Occurs h type v s u → ∃ layout, r.Symmetric s layout ∧ layout.Carries o u

namespace Faithful

variable {r : Registry} {o : WalkOptions} {h : Heap} {type : Ty} {v : Value}

theorem self (faithful : r.Faithful o h type v) :
    ∃ layout, r.Symmetric type layout ∧ layout.Carries o v :=
  faithful type v .self

theorem part (faithful : r.Faithful o h type v) {layout : Layout} {p : Ty × Value}
    (found : r.writer type = .ok layout) (member : p ∈ layout.parts v) :
    r.Faithful o h p.1 p.2 :=
  fun s u place => faithful s u (.trans (.part .self found member) place)

theorem content {id : Nat} {cell : Cell} (faithful : r.Faithful o h type (.object id))
    (found : h[id]? = some cell) : r.Faithful o h cell.type cell.content :=
  fun s u place => faithful s u (.trans (.content .self found) place)

theorem of_writer (faithful : r.Faithful o h type v) {layout : Layout}
    (found : r.writer type = .ok layout) : r.Symmetric type layout ∧ layout.Carries o v := by
  obtain ⟨other, symmetric, carries⟩ := faithful.self
  have same : layout = other := by
    rw [symmetric.writer_eq] at found
    exact (Except.ok.inj found).symm
  subst same
  exact ⟨symmetric, carries⟩

end Faithful

end Registry

/-! ## References of faithful values -/

namespace Layout

variable {o : WalkOptions} {layout : Layout} {v : Value}

theorem Carries.orderingKey_eq (carries : layout.Carries o v) : v.orderingKey = v := by
  cases carries <;> rfl

theorem exists_mem_zip {types : List Ty} {vs : List Value} (full : types.length = vs.length)
    {v : Value} (member : v ∈ vs) : ∃ p ∈ types.zip vs, p.2 = v := by
  have all : (types.zip vs).map Prod.snd = vs := List.map_snd_zip (Nat.le_of_eq full.symm)
  rw [← all] at member
  exact List.mem_map.mp member

theorem Carries.mem_references (carries : layout.Carries o v) {id : Nat}
    (member : id ∈ v.references) (other : v ≠ .object id) :
    ∃ p ∈ layout.parts v, id ∈ p.2.references := by
  cases carries with
  | seq item vs | set item _ _ _ =>
      obtain ⟨w, inside, member⟩ := Value.mem_referencesAll.mp member
      exact ⟨(item, w), List.mem_map_of_mem inside, member⟩
  | map keyType valueType _ shaped _ _ =>
      obtain ⟨e, inside, member⟩ := Value.mem_referencesAll.mp member
      obtain ⟨k, w, rfl⟩ := shaped e inside
      rcases List.mem_append.mp member with key | value
      · exact ⟨(keyType, k), List.mem_flatMap.mpr ⟨_, inside, by simp [entryParts]⟩, key⟩
      · exact ⟨(valueType, w), List.mem_flatMap.mpr ⟨_, inside, by simp [entryParts]⟩, value⟩
  | present item w => exact ⟨(item, w), List.mem_singleton_self _, member⟩
  | record full | nested full =>
      obtain ⟨w, inside, member⟩ := Value.mem_referencesAll.mp member
      obtain ⟨p, paired, rfl⟩ := exists_mem_zip full inside
      exact ⟨p, paired, member⟩
  | shared content id' | anyShared id' =>
      rw [Value.references, List.mem_singleton] at member
      exact absurd (by rw [member]) other
  | _ => simp [Value.references] at member

end Layout

variable {r : Registry} {o : WalkOptions} {h : Heap} {id : Nat}

mutual

theorem Written.references_met :
    ∀ {n : Nat} {type : Ty} {v : Value} {met met' : Array Nat} {bs : Bytes},
    Written r o h n type v met bs met' → r.Faithful o h type v → id ∈ v.references → id ∈ met'
  | _, _, _, _, _, _, .leaf found encodes, faithful, member => by
      have carries := (faithful.of_writer found).2
      cases encodes with
      | nothing v =>
          cases carries
          simp [Value.references] at member
      | _ => simp [Value.references] at member
  | _, _, v, _, _, _, .parts found opens all, faithful, member => by
      have other : v ≠ .object id := by
        rintro rfl
        cases opens
      obtain ⟨p, inside, member⟩ := (faithful.of_writer found).2.mem_references member other
      exact all.references_met (fun q within => faithful.part found within) inside member
  | _, _, _, _, _, _, .nested found full all, faithful, member => by
      obtain ⟨p, inside, member⟩ := (faithful.of_writer found).2.mem_references member nofun
      exact all.references_met (fun q within => faithful.part found within) inside member
  | _, _, _, _, _, _, .known _ _ _ known, _, member => by
      rw [Value.references, List.mem_singleton] at member
      subst member
      by_contra missing
      rw [Array.idxOf?_eq_none_iff.mpr missing] at known
      contradiction
  | _, _, _, _, _, _, .fresh _ _ _ _ _ content, _, member => by
      rw [Value.references, List.mem_singleton] at member
      subst member
      exact content.mem_of_mem Array.mem_push_self

theorem WrittenAll.references_met : ∀ {n : Nat} {ps : List (Ty × Value)} {met met' : Array Nat}
    {bs : Bytes}, WrittenAll r o h n ps met bs met' → (∀ p ∈ ps, r.Faithful o h p.1 p.2) →
    ∀ {p : Ty × Value}, p ∈ ps → id ∈ p.2.references → id ∈ met'
  | _, _, _, _, _, .nil, _, _, inside, _ => nomatch inside
  | _, _, _, _, _, .cons first rest, faithful, p, inside, member => by
      rcases List.mem_cons.mp inside with rfl | inside
      · exact rest.mem_of_mem (first.references_met (faithful _ List.mem_cons_self) member)
      · exact rest.references_met
          (fun q within => faithful q (List.mem_cons_of_mem _ within)) inside member

end

end Chronicle
