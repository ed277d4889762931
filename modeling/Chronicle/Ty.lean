import Chronicle.Codec.Scalar

/-!
# Types

The closed types a value can have.  A type the host defines is known by its
path alone; what it contains is said by its handler.
-/

namespace Chronicle

inductive Ty where
  | bool
  | scalar (s : Scalar)
  | unit
  | text
  | anyShared
  | seq (item : Ty)
  | option (item : Ty)
  | map (key value : Ty)
  | set (item : Ty)
  | hashMap (key value : Ty)
  | hashSet (item : Ty)
  | shared (content : Ty)
  | asset (content : Ty)
  | named (path : String)
  deriving DecidableEq, Repr, Inhabited

/-- A type-level binary numeral, most significant bit innermost. -/
def binaryNumeral (bits : List Bool) : String :=
  bits.foldl
    (fun acc bit =>
      "typenum::uint::UInt<" ++ acc ++ ", typenum::bit::" ++ (if bit then "B1>" else "B0>"))
    "typenum::uint::UTerm"

def Scalar.name : Scalar → String
  | .u8 => "u8"
  | .u16 => "u16"
  | .u32 => "u32"
  | .u64 => "u64"
  | .i8 => "i8"
  | .i16 => "i16"
  | .i32 => "i32"
  | .i64 => "i64"
  | .f32 => "f32"
  | .f64 => "f64"
  | .size => "usize"
  | .fixed64 =>
      "fixed::FixedI64<" ++ binaryNumeral [true, false, false, false, false, false] ++ ">"
  | .fixed32 =>
      "fixed::FixedI32<" ++ binaryNumeral [true, false, false, false, false] ++ ">"

def Ty.name : Ty → String
  | .bool => "bool"
  | .scalar s => s.name
  | .unit => "()"
  | .text => "alloc::string::String"
  | .anyShared => "alloc::rc::Rc<dyn core::any::Any>"
  | .seq item => "alloc::vec::Vec<" ++ item.name ++ ">"
  | .option item => "core::option::Option<" ++ item.name ++ ">"
  | .map key value =>
      "alloc::collections::btree::map::BTreeMap<" ++ key.name ++ ", " ++ value.name ++ ">"
  | .set item => "alloc::collections::btree::set::BTreeSet<" ++ item.name ++ ">"
  | .hashMap key value =>
      "std::collections::hash::map::HashMap<" ++ key.name ++ ", " ++ value.name ++ ">"
  | .hashSet item => "std::collections::hash::set::HashSet<" ++ item.name ++ ">"
  | .shared content => "alloc::rc::Rc<core::cell::RefCell<" ++ content.name ++ ">>"
  | .asset content => "alloc::rc::Rc<" ++ content.name ++ ">"
  | .named path => path

end Chronicle
