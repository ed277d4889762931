import Chronicle.Proofs.Codec.Consumption
import Chronicle.Walk.Snapshot
import Mathlib.Data.List.Nodup

/-!
# The written form of a graph

A grammar for what walks write and read.  A value opens with octets that its
layout fixes and goes on with its parts, each of a type that the layout names.
A reference is a marker and a number; at an object's first occurrence its
content follows, one level deeper, and the object joins those met before.  The
grammar says nothing about how writing or reading proceeds, so each walk is
related to it on its own.
-/

namespace Chronicle

/-! ## Parts of a value -/

namespace Layout

def entryParts (keyType valueType : Ty) : Value → List (Ty × Value)
  | .entry k v => [(keyType, k), (valueType, v)]
  | _ => []

def parts : Layout → Value → List (Ty × Value)
  | .seq item, .list vs => vs.map (item, ·)
  | .set item _, .list vs => vs.map (item, ·)
  | .option item, .present v => [(item, v)]
  | .map keyType valueType _, .list entries => entries.flatMap (entryParts keyType valueType)
  | .record fields, .list vs => fields.zip vs
  | .nested fields, .list vs => fields.zip vs
  | _, _ => []

theorem sizeOf_of_mem_parts {layout : Layout} {v : Value} {p : Ty × Value}
    (member : p ∈ layout.parts v) : sizeOf p.2 < sizeOf v := by
  unfold parts at member
  split at member
  case h_1 vs | h_2 vs =>
    obtain ⟨w, inside, rfl⟩ := List.mem_map.mp member
    have := List.sizeOf_lt_of_mem inside
    simp only [Value.list.sizeOf_spec]
    omega
  case h_3 w =>
    rw [List.mem_singleton.mp member]
    simp
  case h_4 keyType valueType entries =>
    obtain ⟨e, inside, member⟩ := List.mem_flatMap.mp member
    have := List.sizeOf_lt_of_mem inside
    cases e with
    | entry k w =>
        simp only [entryParts, List.mem_cons, List.not_mem_nil, or_false] at member
        simp only [Value.entry.sizeOf_spec] at this
        simp only [Value.list.sizeOf_spec]
        rcases member with rfl | rfl <;> simp only <;> omega
    | _ => simp [entryParts] at member
  case h_5 fields vs | h_6 fields vs =>
    have := List.sizeOf_lt_of_mem (List.of_mem_zip member).2
    simp only [Value.list.sizeOf_spec]
    omega
  case h_7 => simp at member

end Layout

def Value.IsEntry (e : Value) : Prop := ∃ k v, e = .entry k v

def WalkOptions.Admits (o : WalkOptions) (n : Nat) : Prop :=
  n ≤ o.limits.maxSequence ∧ n ≤ maxPrefix

theorem WalkOptions.Admits.lt_leBound {o : WalkOptions} {n : Nat} (admits : o.Admits n) :
    n < leBound 4 :=
  Nat.lt_of_le_of_lt admits.2 (by decide)

theorem getElem?_of_idxOf? {met : Array Nat} {id number : Nat}
    (known : met.idxOf? id = some number) : met[number]? = some id := by
  rcases met with ⟨ids⟩
  rw [List.idxOf?_toArray] at known
  obtain ⟨inside, same, _⟩ := List.idxOf?_eq_some_iff.mp known
  simp [inside, same]

theorem idxOf?_of_nodup {α : Type} [BEq α] [LawfulBEq α] {xs : List α} (distinct : xs.Nodup)
    {a : α} {i : Nat} (place : xs[i]? = some a) : xs.idxOf? a = some i := by
  obtain ⟨inside, same⟩ := List.getElem?_eq_some_iff.mp place
  refine List.idxOf?_eq_some_iff.mpr ⟨inside, same, fun j before clash => ?_⟩
  have equal : j = i := (List.Nodup.getElem_inj_iff distinct).mp (clash.trans same.symm)
  omega

theorem idxOf?_of_getElem? {met : Array Nat} {id number : Nat} (distinct : met.toList.Nodup)
    (place : met[number]? = some id) : met.idxOf? id = some number := by
  rcases met with ⟨ids⟩
  rw [List.idxOf?_toArray]
  exact idxOf?_of_nodup distinct (by simpa using place)

namespace Registry

variable {r : Registry} {content : Ty}

theorem exists_tag? (listed : content ∈ r.tags) : ∃ tag, r.tag? content = some tag :=
  Option.isSome_iff_exists.mp (List.isSome_idxOf?.mpr listed)

theorem tag?_of_ofTag? (distinct : r.tags.Nodup) {tag : Nat} (named : r.ofTag? tag = some content) :
    r.tag? content = some tag :=
  idxOf?_of_nodup distinct named

end Registry

/-! ## Operations of a registered type -/

namespace Registry

variable {r : Registry} {type : Ty} {h : Handler}

theorem writer_of_find? {layout : Layout} (found : r.find? type = some h)
    (writes : h.writer = some layout) : r.writer type = .ok layout := by
  rw [writer, resolve, found]
  simp only [bind, Except.bind, writes]
  rfl

theorem reader_of_find? {layout : Layout} (found : r.find? type = some h)
    (reads : h.reader = some layout) : r.reader type = .ok layout := by
  rw [reader, resolve, found]
  simp only [bind, Except.bind, reads]
  rfl

theorem initializer_of_find? {i : Initializer} (found : r.find? type = some h)
    (makes : h.initializer = some i) : r.initializer type = .ok i := by
  rw [initializer, resolve, found]
  simp only [bind, Except.bind, makes]
  rfl

end Registry

/-! ## Grammar -/

inductive Layout.Encodes (o : WalkOptions) : Layout → Value → Bytes → Prop
  | nothing (v : Value) : Encodes o .nothing v []
  | bool (b : Bool) : Encodes o .bool (.bool b) [if b then 1 else 0]
  | scalar (s : Scalar) (n : Int) : Encodes o (.scalar s) (.int n) (s.encode n)
  | text (s : String) : o.Admits (Utf8.encode s).length →
      Encodes o .text (.text s) (leBytes 4 (Utf8.encode s).length ++ Utf8.encode s)
  | octets (bs : Bytes) : o.Admits bs.length →
      Encodes o .octets (.bytes bs) (leBytes 4 bs.length ++ bs)
  | absent (item : Ty) : Encodes o (.option item) .absent [0]
  | packed {format : Plain.PackedFormat} {d : Plain.Datum} {bs : Bytes} :
      Plain.checkOrder d = .ok () → format.encode d = .ok bs → o.Admits bs.length →
      Encodes o (.packed format) (.plain d) (leBytes 4 bs.length ++ bs)
  | asset {content : Ty} {handle : AssetHandle} {resolver : AssetResolver} {path : String} :
      o.assets = some resolver → resolver.pathOf handle = some path →
      o.Admits (Utf8.encode path).length →
      Encodes o (.asset content) (.asset handle)
        (leBytes 4 (Utf8.encode path).length ++ Utf8.encode path)

inductive Layout.Opens (o : WalkOptions) : Layout → Value → Bytes → Prop
  | seq (item : Ty) (vs : List Value) : o.Admits vs.length →
      Opens o (.seq item) (.list vs) (leBytes 4 vs.length)
  | set (item : Ty) (order : KeyOrder) (vs : List Value) : o.Admits vs.length →
      Opens o (.set item order) (.list vs) (leBytes 4 vs.length)
  | map (keyType valueType : Ty) (order : KeyOrder) (entries : List Value) :
      o.Admits entries.length →
      (∀ e ∈ entries, e.IsEntry) →
      Opens o (.map keyType valueType order) (.list entries) (leBytes 4 entries.length)
  | present (item : Ty) (v : Value) : Opens o (.option item) (.present v) [1]
  | record (fields : List Ty) (vs : List Value) : fields.length = vs.length →
      Opens o (.record fields) (.list vs) []

theorem Layout.Opens.length_pos {o : WalkOptions} {layout : Layout} {v : Value} {front : Bytes}
    (opens : layout.Opens o v front) (unlike : ∀ fields, layout ≠ .record fields) :
    0 < front.length := by
  cases opens with
  | record fields _ _ => exact absurd rfl (unlike fields)
  | _ => simp

/-- The layouts of references to an object with content of a given type, and
what stands between the marker and the content. -/
inductive Layout.Refers (r : Registry) : Layout → Ty → Bytes → Prop
  | shared (content : Ty) : Refers r (.shared content) content []
  | anyShared {content : Ty} {tag : Nat} : r.tag? content = some tag →
      Refers r .anyShared content (Scalar.u32.encode tag)

theorem Layout.Encodes.ne_record {o : WalkOptions} {layout : Layout} {v : Value} {bs : Bytes}
    (encodes : layout.Encodes o v bs) (fields : List Ty) : layout ≠ .record fields := by
  rintro rfl
  cases encodes

theorem Layout.Refers.ne_record {r : Registry} {layout : Layout} {content : Ty} {tag : Bytes}
    (refers : layout.Refers r content tag) (fields : List Ty) : layout ≠ .record fields := by
  rintro rfl
  cases refers

mutual

/-- `Written r o h n type v met bs met'`: with `n` levels left to open and the
objects `met` met before, the octets `bs` are the written form of `v`, and `met'`
are the objects met by then. -/
inductive Written (r : Registry) (o : WalkOptions) (h : Heap) :
    Nat → Ty → Value → Array Nat → Bytes → Array Nat → Prop
  | leaf {n : Nat} {type : Ty} {v : Value} {met : Array Nat} {layout : Layout} {bs : Bytes} :
      r.writer type = .ok layout → layout.Encodes o v bs →
      Written r o h n type v met bs met
  | parts {n : Nat} {type : Ty} {v : Value} {met met' : Array Nat} {layout : Layout}
      {front bs : Bytes} :
      r.writer type = .ok layout → layout.Opens o v front →
      WrittenAll r o h n (layout.parts v) met bs met' →
      Written r o h n type v met (front ++ bs) met'
  | nested {n : Nat} {type : Ty} {fields : List Ty} {vs : List Value}
      {met met' : Array Nat} {bs : Bytes} :
      r.writer type = .ok (.nested fields) → fields.length = vs.length →
      WrittenAll r o h n (fields.zip vs) met bs met' →
      Written r o h (n + 1) type (.list vs) met bs met'
  | known {n : Nat} {type : Ty} {layout : Layout} {id number : Nat} {cell : Cell}
      {met : Array Nat} {tag : Bytes} :
      r.writer type = .ok layout → h[id]? = some cell → layout.Refers r cell.type tag →
      met.idxOf? id = some number →
      Written r o h n type (.object id) met (backMarker :: Scalar.u32.encode number) met
  | fresh {n : Nat} {type : Ty} {layout : Layout} {id : Nat} {cell : Cell}
      {met met' : Array Nat} {tag bs : Bytes} :
      r.writer type = .ok layout → h[id]? = some cell → layout.Refers r cell.type tag →
      id ∉ met → met.size < leBound 4 →
      Written r o h n cell.type cell.content (met.push id) bs met' →
      Written r o h (n + 1) type (.object id) met
        (newMarker :: Scalar.u32.encode met.size ++ tag ++ bs) met'

inductive WrittenAll (r : Registry) (o : WalkOptions) (h : Heap) :
    Nat → List (Ty × Value) → Array Nat → Bytes → Array Nat → Prop
  | nil {n : Nat} {met : Array Nat} : WrittenAll r o h n [] met [] met
  | cons {n : Nat} {type : Ty} {v : Value} {rest : List (Ty × Value)}
      {met met' met'' : Array Nat} {bs cs : Bytes} :
      Written r o h n type v met bs met' → WrittenAll r o h n rest met' cs met'' →
      WrittenAll r o h n ((type, v) :: rest) met (bs ++ cs) met''

end

variable {r : Registry} {o : WalkOptions} {h : Heap}

mutual

theorem Written.mem_of_mem {id : Nat} : ∀ {n : Nat} {type : Ty} {v : Value}
    {met met' : Array Nat} {bs : Bytes},
    Written r o h n type v met bs met' → id ∈ met → id ∈ met'
  | _, _, _, _, _, _, .leaf _ _, member => member
  | _, _, _, _, _, _, .parts _ _ all, member => all.mem_of_mem member
  | _, _, _, _, _, _, .nested _ _ all, member => all.mem_of_mem member
  | _, _, _, _, _, _, .known _ _ _ _, member => member
  | _, _, _, _, _, _, .fresh _ _ _ _ _ content, member =>
      content.mem_of_mem (Array.mem_push_of_mem _ member)

theorem WrittenAll.mem_of_mem {id : Nat} : ∀ {n : Nat} {ps : List (Ty × Value)}
    {met met' : Array Nat} {bs : Bytes},
    WrittenAll r o h n ps met bs met' → id ∈ met → id ∈ met'
  | _, _, _, _, _, .nil, member => member
  | _, _, _, _, _, .cons first rest, member => rest.mem_of_mem (first.mem_of_mem member)

end

end Chronicle
