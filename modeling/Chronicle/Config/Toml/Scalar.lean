import Chronicle.Config.Document
import Chronicle.Config.Parser

/-!
# TOML scalars

Text, keys, numbers and times.  Of the values only whole numbers are kept; a
time counts as a record whose fields nobody asks for.
-/

namespace Chronicle.Config.Toml

open Chronicle.Config.Parser

/-! ## Blanks -/

def isBlank (c : Char) : Bool :=
  c == ' ' || c == '\t'

def isPlain (c : Char) : Bool :=
  c == '\t' || ' ' ≤ c && c != '\x7f'

def blank : Parser Unit := do
  discard (takeWhile isBlank)

def newline : Parser Unit :=
  char '\n' <|> literal "\r\n"

def comment : Parser Unit := do
  char '#'
  discard (takeWhile isPlain)

def blankLines : Parser Unit := do
  discard (many (discard (satisfying isBlank) <|> newline <|> do comment; newline))

def lineEnd : Parser Unit := do
  blank
  discard (optional comment)
  newline <|> finished

/-! ## Text -/

def codePoint (width : Nat) : Parser Char := do
  let digits ← takeWhile1 Char.isHexDigit
  let (digits, rest) := digits.splitAt width
  guard (digits.length = width)
  modify (rest ++ ·)
  charAt? (← numeral? 16 digits)

def escaped : Parser Char := do
  char '\x5c'
  match ← satisfying fun _ => true with
  | 'b' => return '\x08'
  | 't' => return '\t'
  | 'n' => return '\n'
  | 'f' => return '\x0c'
  | 'r' => return '\r'
  | '\x22' => return '\x22'
  | '\x5c' => return '\x5c'
  | 'u' => codePoint 4
  | 'U' => codePoint 8
  | _ => failure

def unescaped (quote : Char) : Parser Char :=
  satisfying fun c => isPlain c && c != quote && !(quote == '\x22' && c == '\x5c')

def quoted (quote : Char) : Parser (List Char) := do
  char quote
  let cs ← many (unescaped quote <|> do guard (quote = '\x22'); escaped)
  char quote
  return cs

def continuation : Parser Unit := do
  char '\x5c'
  blank
  newline
  discard (many (discard (satisfying isBlank) <|> newline))

def longQuoted (quote : Char) : Parser Unit := do
  let quotes := takeWhile1 (· == quote)
  char quote; char quote; char quote
  let content : Parser Unit := discard (unescaped quote) <|> newline <|>
    (do guard (quote = '\x22'); continuation <|> discard escaped) <|>
    (do let run ← quotes; guard (run.length < 3))
  discard (many content)
  let run ← quotes
  guard (3 ≤ run.length && run.length ≤ 5)

def text : Parser Unit :=
  longQuoted '\x22' <|> longQuoted '\x27' <|> discard (quoted '\x22') <|> discard (quoted '\x27')

/-! ## Keys -/

def isKeyChar (c : Char) : Bool :=
  c.isAlphanum || c == '_' || c == '-'

def simpleKey : Parser String :=
  String.ofList <$> (quoted '\x22' <|> quoted '\x27' <|> takeWhile1 isKeyChar)

def depthLimit : Nat := 80

def path : Parser (List String × String) := do
  let keys ← separated1 (char '.') do
    blank
    let key ← simpleKey
    blank
    return key
  guard (keys.length < depthLimit)
  return (keys.dropLast, ← keys.getLast?)

/-! ## Numbers -/

def digits (p : Char → Bool) : Parser (List Char) := do
  let first ← satisfying p
  let rest ← many (satisfying p <|> do char '_'; satisfying p)
  return first :: rest

def sign : Parser Bool :=
  (do char '-'; return true) <|> (do char '+'; return false) <|> pure false

def decimal : Parser (Bool × List Char) := do
  let negative ← sign
  if (← peek?) == some '0' then
    char '0'
    return (negative, ['0'])
  else return (negative, ← digits Char.isDigit)

def based (mark : String) (base : Nat) (p : Char → Bool) : Parser Nat := do
  literal mark
  let n ← numeral? base (← digits p)
  guard (Scalar.i64.Holds n)
  return n

def whole : Parser Document :=
  (.natural <$> (based "0x" 16 Char.isHexDigit <|>
    based "0o" 8 (fun c => '0' ≤ c && c ≤ '7') <|>
    based "0b" 2 (fun c => c == '0' || c == '1'))) <|> do
  let (negative, cs) ← decimal
  let n ← numeral? 10 cs
  guard (Scalar.i64.Holds (if negative then -n else n))
  return if negative && n != 0 then .other else .natural n

/-- Whether `n * 10 ^ e` rounds to infinity as a binary number of 64 bits: it
is as large as the middle between the largest finite number and the next power
of two. -/
def overflows (n : Nat) (e : Int) : Bool :=
  let size : Int := (toString n).length
  if n = 0 || size + e < 309 then false
  else if 310 < size + e then true
  else
    let middle := ((1 <<< 54) - 1) <<< 970
    if e < 0 then middle * Nat.pow 10 (-e).toNat ≤ n else middle ≤ n * Nat.pow 10 e.toNat

def exponent : Parser Int := do
  discard (satisfying fun c => c == 'e' || c == 'E')
  let negative ← sign
  let n ← numeral? 10 (← digits Char.isDigit)
  return if negative then -n else n

def real : Parser Unit := do
  let (negative, whole) ← decimal
  let fraction ← optional (do char '.'; digits Char.isDigit)
  let e ← if fraction.isSome then (·.getD 0) <$> optional exponent else exponent
  let n ← numeral? 10 (whole ++ fraction.getD [])
  guard (negative || !overflows n (e - (fraction.getD []).length))

def special : Parser Unit := do
  discard sign
  literal "inf" <|> literal "nan"

/-! ## Times -/

def twoDigits (low high : Nat) : Parser Nat := do
  let n ← numeral? 10 [← satisfying Char.isDigit, ← satisfying Char.isDigit]
  guard (low ≤ n && n ≤ high)
  return n

def monthLength (year month : Nat) : Nat :=
  if month = 2 then
    if year % 4 = 0 && (year % 100 != 0 || year % 400 = 0) then 29 else 28
  else if month ∈ [4, 6, 9, 11] then 30 else 31

def date : Parser Unit := do
  let year := 100 * (← twoDigits 0 99) + (← twoDigits 0 99)
  char '-'
  let month ← twoDigits 1 12
  char '-'
  discard (twoDigits 1 (monthLength year month))

def time : Parser Unit := do
  discard (twoDigits 0 23)
  char ':'
  discard (twoDigits 0 59)
  char ':'
  discard (twoDigits 0 60)
  discard (optional (do char '.'; takeWhile1 Char.isDigit))

def offset : Parser Unit :=
  discard (satisfying fun c => c == 'Z' || c == 'z') <|> do
    discard (satisfying fun c => c == '+' || c == '-')
    discard (twoDigits 0 23)
    char ':'
    discard (twoDigits 0 59)

def moment : Parser Unit :=
  (do
    date
    discard <| optional do
      discard (satisfying fun c => c == 'T' || c == 't' || c == ' ')
      time
      discard (optional offset)) <|> time

def number : Parser Document :=
  (do moment; return .record none []) <|> (do real <|> special; return .other) <|> whole

end Chronicle.Config.Toml
