import Chronicle.Config.Document
import Chronicle.Config.Parser

/-!
# JSON

A number without sign, fraction and exponent is whole.  Text inside a value
need only be well formed, but the keys of an object must stand for characters.
-/

namespace Chronicle.Config.Json

open Chronicle.Config.Parser

def blank : Parser Unit := do
  discard (takeWhile fun c => c == ' ' || c == '\n' || c == '\t' || c == '\r')

/-! ## Text -/

inductive Piece where
  | char (c : Char)
  | unit (n : Nat)
  deriving DecidableEq, Repr

def unitNumber : Parser Nat := do
  let a ← satisfying Char.isHexDigit
  let b ← satisfying Char.isHexDigit
  let c ← satisfying Char.isHexDigit
  let d ← satisfying Char.isHexDigit
  numeral? 16 [a, b, c, d]

def escaped : Parser Piece := do
  char '\x5c'
  match ← satisfying fun _ => true with
  | '\x22' => return .char '\x22'
  | '\x5c' => return .char '\x5c'
  | '/' => return .char '/'
  | 'b' => return .char '\x08'
  | 'f' => return .char '\x0c'
  | 'n' => return .char '\n'
  | 'r' => return .char '\r'
  | 't' => return .char '\t'
  | 'u' => return .unit (← unitNumber)
  | _ => failure

def piece : Parser Piece :=
  Piece.char <$> satisfying (fun c => ' ' ≤ c && c != '\x22' && c != '\x5c') <|> escaped

def text : Parser (List Piece) := do
  char '\x22'
  let pieces ← many piece
  char '\x22'
  return pieces

/-- The characters of a text.  Units above the first plane come in pairs, high
before low. -/
def decode? : List Piece → Option (List Char)
  | [] => some []
  | .char c :: rest => (c :: ·) <$> decode? rest
  | .unit n :: rest =>
      if 0xD800 ≤ n && n < 0xDC00 then
        match rest with
        | .unit m :: rest =>
            if 0xDC00 ≤ m && m < 0xE000 then
              (Char.ofNat (0x10000 + 0x400 * (n - 0xD800) + (m - 0xDC00)) :: ·) <$> decode? rest
            else none
        | _ => none
      else do
        let c ← charAt? n
        (c :: ·) <$> decode? rest

/-! ## Values -/

def digits : Parser (List Char) :=
  takeWhile1 Char.isDigit

def whole : Parser (List Char) :=
  (do char '0'; return ['0']) <|> digits

def exponent : Parser Unit := do
  discard (satisfying fun c => c == 'e' || c == 'E')
  discard (optional (satisfying fun c => c == '+' || c == '-'))
  discard digits

def number : Parser Document := do
  let negative ← taken "-"
  let n ← numeral? 10 (← whole)
  let fraction ← optional (do char '.'; digits)
  let exponent ← optional exponent
  return if negative || fraction.isSome || exponent.isSome then .other else .natural n

def object (members : List (List Piece × Document)) : Document :=
  match members.mapM fun (key, d) => (decode? key).map fun cs => (String.ofList cs, d) with
  | some fields => .record none fields
  | none => .other

def value : Nat → Parser Document
  | 0 => failure
  | depth + 1 => do
      blank
      let d ← match ← peek? with
        | some '\x7b' => do
            char '\x7b'
            let members ← separated (char ',') do
              blank
              let key ← text
              blank
              char ':'
              return (key, ← value depth)
            blank
            char '\x7d'
            pure (object members)
        | some '[' => do
            char '['
            let items ← separated (char ',') (value depth)
            blank
            char ']'
            pure (.list items)
        | some '\x22' => do discard text; pure .other
        | some 't' => do literal "true"; pure .other
        | some 'f' => do literal "false"; pure .other
        | some 'n' => do literal "null"; pure .other
        | _ => number
      blank
      return d

def parse? (cs : List Char) : Option Document :=
  (value (cs.length + 1)).parse? cs

end Chronicle.Config.Json
