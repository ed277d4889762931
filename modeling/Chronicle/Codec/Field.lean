import Chronicle.Codec.Writer
import Chronicle.Codec.Reader

/-!
# Typed fields

The codec seen as a list of fields: what is written field by field is read
back by the list of their kinds.
-/

namespace Chronicle

inductive Field where
  | bool (b : Bool)
  | scalar (s : Scalar) (n : Int)
  | raw (bs : Bytes)
  | length (n : Nat)
  | sized (bs : Bytes)
  | text (s : String)
  deriving DecidableEq, Repr

inductive FieldKind where
  | bool
  | scalar (s : Scalar)
  | raw (count : Nat)
  | length
  | sized
  | text
  deriving DecidableEq, Repr

namespace Field

def kind : Field → FieldKind
  | .bool _ => .bool
  | .scalar s _ => .scalar s
  | .raw bs => .raw bs.length
  | .length _ => .length
  | .sized _ => .sized
  | .text _ => .text

def write : Field → Writing Unit
  | .bool b => Writing.bool b
  | .scalar s n => Writing.scalar s n
  | .raw bs => Writing.raw bs
  | .length n => Writing.length n
  | .sized bs => Writing.sized bs
  | .text s => Writing.text s

/-- The fields one after the other, up to the first that is refused. -/
def writeAll (fields : List Field) : Writing Unit :=
  fields.forM write

end Field

namespace FieldKind

def read : FieldKind → Reading Field
  | .bool => return .bool (← Reading.bool)
  | .scalar s => return .scalar s (← Reading.scalar s)
  | .raw count => return .raw (← Reading.raw count)
  | .length => return .length (← Reading.length)
  | .sized => return .sized (← Reading.sized)
  | .text => return .text (← Reading.text)

def readAll (kinds : List FieldKind) : Reading (List Field) :=
  kinds.mapM read

end FieldKind

end Chronicle
