import Chronicle.Bytes

/-!
# Plain data

Plain data has no references.  A datum is the run of events that a value of
some plain type produces when it is taken apart: every shape is told apart from
the others, and a map keeps the order in which its entries come.
-/

namespace Chronicle.Plain

inductive IntWidth where
  | w8
  | w16
  | w32
  | w64
  | w128
  deriving DecidableEq, Repr

inductive SequenceShape where
  | list
  | tuple
  | tupleRecord
  | record
  deriving DecidableEq, Repr

inductive VariantShape where
  | tuple
  | record
  deriving DecidableEq, Repr

/-- What a map is given in one call. -/
inductive MapCall where
  | key
  | value
  deriving DecidableEq, Repr

inductive Datum where
  | unit
  | unitRecord
  | bool (b : Bool)
  | signed (width : IntWidth) (n : Int)
  | unsigned (width : IntWidth) (n : Nat)
  | single (bits : BitVec 32)
  | double (bits : BitVec 64)
  | char (c : Char)
  | text (s : String)
  | bytes (bs : Bytes)
  | absent
  | present (value : Datum)
  | wrapper (value : Datum)
  | unitVariant (index : Nat)
  | wrapperVariant (index : Nat) (value : Datum)
  | sequence (shape : SequenceShape) (items : List Datum)
  | variant (shape : VariantShape) (index : Nat) (items : List Datum)
  | map (entries : List (Datum × Datum))
  /-- A map that yields a value before any key. -/
  | keylessMap (value : Datum)
  /-- A map that need not go entry by entry: its calls in order. -/
  | irregularMap (calls : List (MapCall × Datum))
  /-- A value that refuses to be taken apart. -/
  | refusal (reason : String)
  deriving BEq, Repr

end Chronicle.Plain
