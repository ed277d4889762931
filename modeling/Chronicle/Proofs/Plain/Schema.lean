import Chronicle.Plain.Datum

/-!
# Schemas of plain data

A schema says of what form the values of a plain type are.  Records and
enumerations are declared under a name, so that a type can contain itself.  The
values of a schema have an order, which goes through their parts from the first
to the last, and each is taken apart into a datum as its schema says.
-/

namespace Chronicle.Plain

/-! ## Schemas -/

def IntWidth.octets : IntWidth → Nat
  | .w8 => 1
  | .w16 => 2
  | .w32 => 4
  | .w64 => 8
  | .w128 => 16

inductive Schema where
  | bool
  | signed (width : IntWidth)
  | unsigned (width : IntWidth)
  | char
  | text
  | bytes
  | unit
  | option (item : Schema)
  | tuple (items : List Schema)
  | list (item : Schema)
  | set (item : Schema)
  | map (key value : Schema)
  | declared (name : String)
  deriving Repr

inductive Fields where
  | unit
  | newtype (item : Schema)
  | tuple (items : List Schema)
  | record (items : List Schema)
  deriving Repr

def Fields.types : Fields → List Schema
  | .unit => []
  | .newtype item => [item]
  | .tuple items | .record items => items

structure Enumeration where
  variants : List (Int × Fields)
  ascending : variants.Pairwise fun a b => a.1 < b.1

def Enumeration.find? (e : Enumeration) (discriminant : Int) : Option (Nat × Fields) :=
  (e.variants.zipIdx.find? fun v => v.1.1 = discriminant).map fun v => (v.2, v.1.2)

inductive Declaration where
  | record (fields : Fields)
  | enumeration (e : Enumeration)

abbrev Declarations := String → Option Declaration

/-! ## Terms -/

inductive Term where
  | bool (b : Bool)
  | int (n : Int)
  | char (c : Char)
  | text (s : String)
  | bytes (bs : Bytes)
  | absent
  | present (item : Term)
  /-- The parts of a tuple or a record, or the items of a list or a set. -/
  | sequence (items : List Term)
  | map (entries : List (Term × Term))
  | variant (discriminant : Int) (fields : List Term)
  deriving Repr

namespace Term

mutual

def cmp : Term → Term → Ordering
  | .bool a, .bool b => compare a b
  | .int a, .int b => compare a b
  | .char a, .char b => compare a b
  | .text a, .text b => compare a b
  | .bytes a, .bytes b => compare a b
  | .absent, .present _ => .lt
  | .present _, .absent => .gt
  | .present a, .present b => cmp a b
  | .sequence as, .sequence bs => cmpAll as bs
  | .map as, .map bs => cmpEntries as bs
  | .variant i as, .variant j bs => (compare i j).then (cmpAll as bs)
  | _, _ => .eq

def cmpAll : List Term → List Term → Ordering
  | [], [] => .eq
  | [], _ :: _ => .lt
  | _ :: _, [] => .gt
  | a :: as, b :: bs => (cmp a b).then (cmpAll as bs)

def cmpEntries : List (Term × Term) → List (Term × Term) → Ordering
  | [], [] => .eq
  | [], _ :: _ => .lt
  | _ :: _, [] => .gt
  | (k, v) :: as, (l, w) :: bs => ((cmp k l).then (cmp v w)).then (cmpEntries as bs)

end

end Term

/-- The terms of a schema under the given declarations.  Sets and maps hold their
items and keys in strictly ascending order. -/
inductive HasSchema (ds : Declarations) : Schema → Term → Prop
  | bool (b : Bool) : HasSchema ds .bool (.bool b)
  | signed {width : IntWidth} {n : Int} : -leBound width.octets ≤ 2 * n →
      2 * n < leBound width.octets → HasSchema ds (.signed width) (.int n)
  | unsigned {width : IntWidth} {n : Int} : 0 ≤ n → n < leBound width.octets →
      HasSchema ds (.unsigned width) (.int n)
  | char (c : Char) : HasSchema ds .char (.char c)
  | text (s : String) : HasSchema ds .text (.text s)
  | bytes (bs : Bytes) : HasSchema ds .bytes (.bytes bs)
  | unit : HasSchema ds .unit (.sequence [])
  | absent {t : Schema} : HasSchema ds (.option t) .absent
  | present {t : Schema} {item : Term} : HasSchema ds t item →
    HasSchema ds (.option t) (.present item)
  | tuple {ts : List Schema} {items : List Term} : items.length = ts.length →
      (∀ p ∈ ts.zip items, HasSchema ds p.1 p.2) → HasSchema ds (.tuple ts) (.sequence items)
  | list {t : Schema} {items : List Term} : (∀ item ∈ items, HasSchema ds t item) →
      HasSchema ds (.list t) (.sequence items)
  | set {t : Schema} {items : List Term} : (∀ item ∈ items, HasSchema ds t item) →
      items.Pairwise (fun a b => a.cmp b = .lt) → HasSchema ds (.set t) (.sequence items)
  | map {k t : Schema} {entries : List (Term × Term)} : (∀ e ∈ entries, HasSchema ds k e.1) →
      (∀ e ∈ entries, HasSchema ds t e.2) →
        entries.Pairwise (fun a b => a.1.cmp b.1 = .lt) → HasSchema ds (.map k t) (.map entries)
  | record {name : String} {fields : Fields} {items : List Term} :
      ds name = some (.record fields) → items.length = fields.types.length →
        (∀ p ∈ fields.types.zip items, HasSchema ds p.1 p.2) →
          HasSchema ds (.declared name) (.sequence items)
  | variant {name : String} {e : Enumeration} {discriminant : Int} {place : Nat} {fields : Fields}
      {items : List Term} : ds name = some (.enumeration e) →
        e.find? discriminant = some (place, fields) → items.length = fields.types.length →
          (∀ p ∈ fields.types.zip items, HasSchema ds p.1 p.2) →
            HasSchema ds (.declared name) (.variant discriminant items)

/-! ## Taking terms apart -/

def Fields.recordDatum : Fields → List Datum → Datum
  | .unit, _ => .unitRecord
  | .newtype _, parts => .wrapper (parts.headD .unit)
  | .tuple _, parts => .sequence .tupleRecord parts
  | .record _, parts => .sequence .record parts

def Fields.variantDatum (index : Nat) : Fields → List Datum → Datum
  | .unit, _ => .unitVariant index
  | .newtype _, parts => .wrapperVariant index (parts.headD .unit)
  | .tuple _, parts => .variant .tuple index parts
  | .record _, parts => .variant .record index parts

namespace Term

variable (ds : Declarations)

mutual

def datum : Schema → Term → Datum
  | .bool, .bool b => .bool b
  | .signed width, .int n => .signed width n
  | .unsigned width, .int n => .unsigned width n.toNat
  | .char, .char c => .char c
  | .text, .text s => .text s
  | .bytes, .bytes bs => .bytes bs
  | .option _, .absent => .absent
  | .option t, .present item => .present (datum t item)
  | .tuple ts, .sequence items => .sequence .tuple (itemData ts items)
  | .list t, .sequence items => .sequence .list (itemData (.replicate items.length t) items)
  | .set t, .sequence items => .sequence .list (itemData (.replicate items.length t) items)
  | .map k t, .map entries => .map (entryData k t entries)
  | .declared name, .sequence items =>
      match ds name with
      | some (.record fields) => fields.recordDatum (itemData fields.types items)
      | _ => .unit
  | .declared name, .variant discriminant items =>
      match ds name with
      | some (.enumeration e) =>
          match e.find? discriminant with
          | some (place, fields) => fields.variantDatum place (itemData fields.types items)
          | none => .unit
      | _ => .unit
  | _, _ => .unit

def itemData : List Schema → List Term → List Datum
  | t :: ts, item :: items => datum t item :: itemData ts items
  | _, _ => []

def entryData (k t : Schema) : List (Term × Term) → List (Datum × Datum)
  | [] => []
  | (key, value) :: entries => (datum k key, datum t value) :: entryData k t entries

end

theorem itemData_eq_map (ts : List Schema) (items : List Term) :
    itemData ds ts items = (ts.zip items).map fun p => p.2.datum ds p.1 := by
  induction ts generalizing items with
  | nil => cases items <;> rfl
  | cons t ts ih =>
      cases items with
      | nil => rfl
      | cons item items => rw [itemData, ih, List.zip_cons_cons, List.map_cons]

theorem entryData_eq_map (k t : Schema) (entries : List (Term × Term)) :
    entryData ds k t entries = entries.map fun e => (e.1.datum ds k, e.2.datum ds t) := by
  induction entries with
  | nil => rfl
  | cons e entries ih => rw [entryData, ih, List.map_cons]

end Term

end Chronicle.Plain
