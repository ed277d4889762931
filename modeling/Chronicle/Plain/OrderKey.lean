import Chronicle.Plain.Datum
import Chronicle.Plain.FloatKey
import Chronicle.WalkError

/-!
# Order of map entries

A map can be stored only if it yields its keys in strictly ascending order,
since any other order could differ from run to run.  Keys are compared through
order keys, which forget the widths of integers and keep everything that the
order of the plain types depends on.
-/

namespace Chronicle.Plain

inductive OrderKey where
  | unit
  | bool (b : Bool)
  | int (n : Int)
  /-- The widest unsigned integers. -/
  | uint (n : Nat)
  | float (key : Int)
  | text (s : String)
  | bytes (bs : Bytes)
  | seq (items : List OrderKey)
  | variant (index : Nat) (key : OrderKey)
  deriving BEq, Repr

namespace OrderKey

def rank : OrderKey → Nat
  | .unit => 0
  | .bool _ => 1
  | .int _ => 2
  | .uint _ => 3
  | .float _ => 4
  | .text _ => 5
  | .bytes _ => 6
  | .seq _ => 7
  | .variant _ _ => 8

mutual

def cmp : OrderKey → OrderKey → Ordering
  | .bool a, .bool b => compare a b
  | .int a, .int b => compare a b
  | .uint a, .uint b => compare a b
  | .float a, .float b => compare a b
  | .text a, .text b => compare a b
  | .bytes a, .bytes b => compare a b
  | .seq as, .seq bs => cmpAll as bs
  | .variant i a, .variant j b => (compare i j).then (cmp a b)
  | a, b => compare a.rank b.rank

/-- Lexicographic order; a beginning comes before what it begins. -/
def cmpAll : List OrderKey → List OrderKey → Ordering
  | [], [] => .eq
  | [], _ :: _ => .lt
  | _ :: _, [] => .gt
  | a :: as, b :: bs => (cmp a b).then (cmpAll as bs)

end

end OrderKey

inductive OrderError where
  | unordered
  | refused (reason : String)
  deriving DecidableEq, Repr

/-- Whether a key may follow the keys before it, the last of which is given. -/
def mayFollow (last : Option OrderKey) (key : OrderKey) : Bool :=
  match last with
  | none => true
  | some previous => previous.cmp key = .lt

mutual

def Datum.key : Datum → Except OrderError OrderKey
  | .unit | .unitRecord => .ok .unit
  | .bool b => .ok (.bool b)
  | .signed _ n => .ok (.int n)
  | .unsigned .w128 n => .ok (.uint n)
  | .unsigned _ n => .ok (.int n)
  | .single bits => .ok (.float (floatKey (widen bits)))
  | .double bits => .ok (.float (floatKey bits))
  | .char c => .ok (.int c.toNat)
  | .text s => .ok (.text s)
  | .bytes bs => .ok (.bytes bs)
  | .absent => .ok (.variant 0 .unit)
  | .present value => do return .variant 1 (← value.key)
  | .wrapper value => value.key
  | .unitVariant index => .ok (.variant index .unit)
  | .wrapperVariant index value => do return .variant index (← value.key)
  | .sequence _ items => do return .seq (← keys items)
  | .variant _ index items => do return .variant index (.seq (← keys items))
  | .map entries => do return .seq (← entryKeys none entries)
  | .keylessMap _ => .error (.refused "map value without a key")
  | .irregularMap calls => do return .seq (← callKeys none none calls)
  | .refusal reason => .error (.refused reason)

def keys : List Datum → Except OrderError (List OrderKey)
  | [] => .ok []
  | d :: rest => do
      let key ← d.key
      return key :: (← keys rest)

/-- Keys of the entries, each a pair; `last` is the key before them.  A key is
judged before its value is looked at. -/
def entryKeys (last : Option OrderKey) :
    List (Datum × Datum) → Except OrderError (List OrderKey)
  | [] => .ok []
  | (k, v) :: rest => do
      let key ← k.key
      if mayFollow last key then
        let value ← v.key
        return .seq [key, value] :: (← entryKeys (some key) rest)
      else
        .error .unordered

/-- Keys of the entries that single calls make up.  A key is held until a value
comes, and a further key takes its place; `last` is the key before them, whether
its value came or not. -/
def callKeys (held last : Option OrderKey) :
    List (MapCall × Datum) → Except OrderError (List OrderKey)
  | [] => .ok []
  | (.key, k) :: rest => do
      let key ← k.key
      if mayFollow last key then callKeys (some key) (some key) rest else .error .unordered
  | (.value, v) :: rest =>
      match held with
      | none => .error (.refused "map value without a key")
      | some key => do
          let value ← v.key
          return .seq [key, value] :: (← callKeys none last rest)

end

def checkOrder (d : Datum) : Except OrderError Unit :=
  d.key.map fun _ => ()

/-- The failure of a walk that meets the offence in a value of the given
type. -/
def OrderError.toWalkError (type : String) : OrderError → WalkError
  | .unordered => .nondeterministic type "BTreeMap" .write
  | .refused reason => .packed reason

end Chronicle.Plain
