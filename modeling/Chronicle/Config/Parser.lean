/-!
# Parsers

A parser takes a value off the front of a text and leaves the rest, or fails.
A failed alternative takes nothing, and an alternative that succeeded is
final.
-/

namespace Chronicle.Config

abbrev Parser (α : Type) := StateT (List Char) Option α

namespace Parser

variable {α : Type}

def peek? : Parser (Option Char) := do
  return (← get).head?

def satisfying (p : Char → Bool) : Parser Char
  | [] => none
  | c :: rest => if p c then some (c, rest) else none

def char (c : Char) : Parser Unit := do
  discard (satisfying (· == c))

def literal (s : String) : Parser Unit :=
  s.toList.forM char

def takeWhile (p : Char → Bool) : Parser (List Char) :=
  fun cs => some (cs.takeWhile p, cs.dropWhile p)

def takeWhile1 (p : Char → Bool) : Parser (List Char) := do
  let cs ← takeWhile p
  guard !cs.isEmpty
  return cs

def taken (s : String) : Parser Bool := do
  return (← optional (literal s)).isSome

def ahead (p : Parser α) : Parser (Option α) := fun cs =>
  some ((p cs).map (·.1), cs)

def repeated (p : Parser α) : List Char → List Char → List α × List Char
  | [], cs => ([], cs)
  | _ :: bound, cs =>
      match p cs with
      | none => ([], cs)
      | some (a, rest) =>
          let (as, rest) := repeated p bound rest
          (a :: as, rest)

/-- Zero or more values.  A parser that takes a character each time runs no more
often than the text has characters. -/
def many (p : Parser α) : Parser (List α) :=
  fun cs => some (repeated p cs cs)

def separated1 (separator : Parser Unit) (p : Parser α) : Parser (List α) := do
  let first ← p
  let rest ← many (do separator; p)
  return first :: rest

def separated (separator : Parser Unit) (p : Parser α) : Parser (List α) :=
  separated1 separator p <|> pure []

def finished : Parser Unit := do
  guard (← get).isEmpty

def parse? (p : Parser α) (cs : List Char) : Option α :=
  (p cs).bind fun (a, rest) => if rest.isEmpty then some a else none

end Parser

def hexValue? (c : Char) : Option Nat :=
  if c.isDigit then some (c.toNat - 48)
  else if 'a' ≤ c && c ≤ 'f' then some (c.toNat - 87)
  else if 'A' ≤ c && c ≤ 'F' then some (c.toNat - 55)
  else none

def numeral? (base : Nat) (cs : List Char) : Option Nat :=
  (cs.filter (· != '_')).foldlM
    (fun n c => do
      let digit ← hexValue? c
      guard (digit < base)
      return base * n + digit) 0

def charAt? (n : Nat) : Option Char :=
  if n.isValidChar then some (Char.ofNat n) else none

end Chronicle.Config
