import Chronicle.Config.Toml.Scalar
import Chronicle.Config.Toml.Table

/-!
# TOML

A document is a list of statements, each of which adds to one table.
-/

namespace Chronicle.Config.Toml

open Chronicle.Config.Parser

def pair (value : Parser Document) : Parser ((List String × String) × Document) := do
  let key ← path
  char '='
  blank
  return (key, ← value)

def inlineTable (pairs : List ((List String × String) × Document)) : Option Document := do
  let entries ← pairs.foldlM (fun es ((way, key), d) => Entries.assign way key d es) []
  return .record none (fieldsOf entries)

def value : Nat → Parser Document
  | 0 => failure
  | depth + 1 => do
      match ← peek? with
      | some '\x22' | some '\x27' => do text; return .other
      | some '[' => do
          guard (depth != 0)
          char '['
          let items ← separated (char ',') do
            blankLines
            let d ← value depth
            blankLines
            return d
          if !items.isEmpty then discard (taken ",")
          blankLines
          char ']'
          return .list items
      | some '\x7b' => do
          guard (depth != 0)
          char '\x7b'
          let pairs ← separated (char ',') do
            let p ← pair (value depth)
            blank
            return p
          blank
          char '\x7d'
          inlineTable pairs
      | some 't' => do literal "true"; return .other
      | some 'f' => do literal "false"; return .other
      | _ => number

/-! ## Statements -/

inductive Statement where
  | nothing
  | assign (path : List String) (key : String) (d : Document)
  | table (path : List String) (key : String)
  | item (path : List String) (key : String)

def statement : Parser Statement :=
  (do comment; newline <|> finished; return .nothing) <|>
  (do newline; return .nothing) <|>
  (do
    literal "[["
    let (way, key) ← path
    literal "]]"
    lineEnd
    return .item way key) <|>
  (do
    char '['
    let (way, key) ← path
    char ']'
    lineEnd
    return .table way key) <|>
  (do
    let ((way, key), d) ← pair (value depthLimit)
    lineEnd
    return .assign way key d)

/-- A document under construction: all its tables, and the way to the one that
new keys go to. -/
structure Draft where
  entries : Entries := []
  current : List String := []

def Draft.add (draft : Draft) : Statement → Option Draft
  | .nothing => some draft
  | .assign way key d => do
      return { draft with
        entries := ← draft.entries.descend (Entries.assign way key d) draft.current }
  | .table way key => do
      return ⟨← draft.entries.descend (Entries.openTable key) way, way ++ [key]⟩
  | .item way key => do
      return ⟨← draft.entries.descend (Entries.openItem key) way, way ++ [key]⟩

def build? (statements : List Statement) : Option Document := do
  let draft ← statements.foldlM Draft.add {}
  return .record none (fieldsOf draft.entries)

def document : Parser Document := do
  discard (optional (char '\ufeff'))
  blank
  let statements ← many do
    let s ← statement
    blank
    return s
  build? statements

def parse? (cs : List Char) : Option Document :=
  document.parse? cs

end Chronicle.Config.Toml
