import Chronicle.Config.Document
import Chronicle.Config.Parser

/-!
# RON

Records stand in parentheses and may carry a name; an empty pair of
parentheses is a record without fields.  Only an unsigned number without point
and exponent is whole.
-/

namespace Chronicle.Config.Ron

open Chronicle.Config.Parser

/-! ## Blanks and names -/

def blockRest : Nat → List Char → Option (List Char)
  | 0, cs => some cs
  | _ + 1, [] => none
  | depth + 1, '/' :: '*' :: rest => blockRest (depth + 2) rest
  | depth + 1, '*' :: '/' :: rest => blockRest depth rest
  | depth + 1, _ :: rest => blockRest (depth + 1) rest
termination_by _ cs => cs.length

def comment : Parser Unit :=
  (do literal "//"; discard (takeWhile (· != '\n'))) <|>
  (do literal "/*"; set (← blockRest 1 (← get)))

def blank : Parser Unit := do
  let space := satisfying fun c => c == ' ' || c == '\t' || c == '\n' || c == '\r'
  discard (many (discard space <|> comment))

def isNameStart (c : Char) : Bool :=
  c.isAlpha || c == '_'

def isNameChar (c : Char) : Bool :=
  c.isAlphanum || c == '_'

def isMarkedChar (c : Char) : Bool :=
  isNameChar c || c == '.' || c == '+' || c == '-'

def name : Parser String := do
  match ← get with
  | 'r' :: '\x22' :: _ => failure
  | 'r' :: '#' :: _ => do
      literal "r#"
      return String.ofList (← takeWhile1 isMarkedChar)
  | c :: rest => do
      guard (isNameStart c)
      guard !(c == 'r' && rest.isEmpty)
      let cs ← takeWhile isNameChar
      guard !((← peek?).any isMarkedChar)
      return String.ofList cs
  | [] => failure

def word (s : String) : Parser Unit := do
  literal s
  guard !((← peek?).any isNameChar)

def comma : Parser Bool := do
  blank
  let found ← taken ","
  if found then blank
  return found

/-! ## Text and characters -/

def escaped : Parser Char := do
  char '\x5c'
  match ← satisfying fun _ => true with
  | '\x27' => return '\x27'
  | '\x22' => return '\x22'
  | '\x5c' => return '\x5c'
  | 'n' => return '\n'
  | 'r' => return '\r'
  | 't' => return '\t'
  | '0' => return '\x00'
  | 'x' => do
      let a ← satisfying Char.isHexDigit
      let b ← satisfying Char.isHexDigit
      charAt? (← numeral? 16 [a, b])
  | 'u' => do
      char '\x7b'
      let digits ← takeWhile1 Char.isHexDigit
      guard (digits.length ≤ 6)
      char '\x7d'
      charAt? (← numeral? 16 digits)
  | _ => failure

def text : Parser (List Char) := do
  char '\x22'
  let cs ← many (satisfying (fun c => c != '\x22' && c != '\x5c') <|> escaped)
  char '\x22'
  return cs

def pastFirst (mark : List Char) : List Char → Option (List Char)
  | [] => none
  | c :: rest =>
      if mark.isPrefixOf (c :: rest) then some ((c :: rest).drop mark.length)
      else pastFirst mark rest

def rawText : Parser Unit := do
  char 'r'
  let signs ← takeWhile (· == '#')
  char '\x22'
  set (← pastFirst ('\x22' :: signs) (← get))

def character : Parser Unit := do
  char '\x27'
  discard (escaped <|> satisfying fun c => c != '\x27' && c != '\x5c')
  char '\x27'

/-! ## Numbers -/

def isWholeChar (c : Char) : Bool :=
  c.isHexDigit || c == '_'

def isRealChar (c : Char) : Bool :=
  c.isDigit || c == '.' || c == 'e' || c == 'E' || c == '+' || c == '-' || c == '_'

def whole : Parser Nat := do
  let base ← match ← get with
    | '0' :: 'x' :: _ => pure 16
    | '0' :: 'o' :: _ => pure 8
    | '0' :: 'b' :: _ => pure 2
    | _ => pure 10
  if base != 10 then modify (·.drop 2)
  let digits ← takeWhile1 isWholeChar
  guard (digits.head? != some '_')
  numeral? base digits

def real : Parser Unit := do
  discard (optional (satisfying fun c => c == '+' || c == '-'))
  let whole ← takeWhile Char.isDigit
  let fraction ← optional (do char '.'; takeWhile Char.isDigit)
  guard !(whole.isEmpty && (fraction.getD []).isEmpty)
  discard <| optional do
    discard (satisfying fun c => c == 'e' || c == 'E')
    discard (optional (satisfying fun c => c == '+' || c == '-'))
    takeWhile1 Char.isDigit

def realValue : Parser Unit :=
  word "inf" <|> word "+inf" <|> word "-inf" <|> word "NaN" <|> word "+NaN" <|> word "-NaN" <|> do
    let cs ← takeWhile isRealChar
    real.parse? cs

def number : Parser Document := do
  let cs ← get
  let sign := cs.head?.filter fun c => c == '+' || c == '-'
  let unsigned := if sign.isSome then cs.drop 1 else cs
  let wholeValue : Parser Document := do
    guard ((unsigned.takeWhile isRealChar).length ≤ (unsigned.takeWhile isWholeChar).length)
    if sign.isSome then discard (satisfying fun _ => true)
    let n ← whole
    match sign with
    | none => do guard (Scalar.u64.Holds n); return .natural n
    | some '+' => do guard (Scalar.i64.Holds n); return .other
    | some _ => do guard (Scalar.i64.Holds (-n)); return .other
  wholeValue <|> do realValue; return .other

/-! ## Values -/

def items {α : Type} (close : Char) (item : Parser α) : Parser (List α) := do
  blank
  let found ← separated (do guard (← comma)) item
  if !found.isEmpty then discard comma
  char close
  return found

def opensRecord : Parser Bool := do
  return (← ahead (do char '('; blank; discard name; blank; char ':')).isSome

def field (value : Parser Document) : Parser (String × Document) := do
  let key ← name
  blank
  char ':'
  blank
  return (key, ← value)

structure Inner where
  content : Parser Document
  item : Parser Document

def body (inner : Option Inner) (given : Option String) : Parser Document := do
  if (← peek?) != some '(' then return .other
  let item := (← inner).item
  let fields ← opensRecord
  char '('
  if fields then return .record given (← items ')' (field item))
  else
    let found ← items ')' item
    return if found.isEmpty then .record given [] else .other

def entry (value : Parser Document) : Parser Unit := do
  discard value
  blank
  char ':'
  blank
  discard value

def present (bare : Bool) (value : Parser Document) : Parser Document := do
  literal "Some"
  blank
  if ← taken "(" then
    blank
    discard value
    discard comma
    char ')'
    return .other
  else
    guard bare
    discard value
    return .other

def around (bare : Bool) (inner : Option Inner) : Parser Document := do
  if (← ahead (word "true" <|> word "false" <|> word "None" <|> word "inf" <|>
      word "-inf" <|> word "NaN")).isSome then
    word "true" <|> word "false" <|> word "None" <|> word "inf" <|> word "-inf" <|> word "NaN"
    return .other
  else if (← ahead (word "Some")).isSome then present bare (← inner).content
  else if ← taken "()" then return .record none []
  else if let some given ← optional name then
    blank
    body inner (some given)
  else match ← peek? with
    | some '(' => body inner none
    | some '[' => do
        char '['
        discard (items ']' (← inner).item)
        return .other
    | some '\x7b' => do
        char '\x7b'
        discard (items '\x7d' (entry (← inner).item))
        return .other
    | some '.' => do realValue; return .other
    | some '\x22' => do discard text; return .other
    | some 'r' => do rawText; return .other
    | some '\x27' => do character; return .other
    | _ => number

/-- A value that opens no more levels than a bound.  `Some` opens one level;
brackets open one, and each value between them another. -/
def value (bare : Bool) : Nat → Parser Document
  | 0, cs => around bare none cs
  | 1, cs => around bare (some ⟨value bare 0, failure⟩) cs
  | levels + 2, cs => around bare (some ⟨value bare (levels + 1), value bare levels⟩) cs

/-! ## Documents -/

def allowance : Parser (List String) := do
  for s in ["#", "!", "[", "enable", "("] do
    literal s
    blank
  let given ← separated1 (do guard (← comma)) name
  discard comma
  for s in [")", "]"] do
    literal s
    blank
  guard (given.all (· ∈ ["unwrap_newtypes", "implicit_some", "unwrap_variant_newtypes"]))
  return given

def levelLimit : Nat := 128

def document : Parser Document := do
  blank
  let allowed ← many allowance
  let d ← value (allowed.flatten.contains "implicit_some") levelLimit
  blank
  return d

def parse? (cs : List Char) : Option Document :=
  document.parse? cs

end Chronicle.Config.Ron
