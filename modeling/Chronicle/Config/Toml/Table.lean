import Chronicle.Config.Document

/-!
# Tables

A table is built up key by key.  How a table came to be decides what may still
be added to it: a header defines a table once, and a longer header or a dotted
key brings the tables on its way into being.
-/

namespace Chronicle.Config.Toml

inductive Origin where
  /-- Its own header. -/
  | header
  /-- The header of a table inside it. -/
  | longerHeader
  /-- A key with dots. -/
  | dottedKey
  deriving DecidableEq, Repr

inductive Entry where
  | value (d : Document)
  | table (origin : Origin) (entries : List (String × Entry))
  /-- An array of tables, the last one first. -/
  | tables (latest : List (List (String × Entry)))

abbrev Entries := List (String × Entry)

namespace Entries

def put (key : String) (e : Entry) : Entries → Entries
  | [] => [(key, e)]
  | (other, old) :: rest =>
      if other = key then (key, e) :: rest else (other, old) :: put key e rest

/-- Give a new key its value, below the tables that a dotted key names. Tables
with a header of their own are closed to dotted keys, and so is the end of the
way if anything but a dotted key brought it into being. -/
def assign : List String → String → Document → Entries → Option Entries
  | [], key, d, es => do
      guard (es.lookup key).isNone
      return es ++ [(key, .value d)]
  | step :: path, key, d, es =>
      match es.lookup step with
      | none => return es.put step (.table .dottedKey (← assign path key d []))
      | some (.table origin inner) => do
          guard (origin = .dottedKey || origin = .longerHeader && !path.isEmpty)
          return es.put step (.table origin (← assign path key d inner))
      | some (.tables (latest :: earlier)) => do
          guard !path.isEmpty
          return es.put step (.tables ((← assign path key d latest) :: earlier))
      | _ => none

def descend (change : Entries → Option Entries) : List String → Entries → Option Entries
  | [], es => change es
  | step :: path, es =>
      match es.lookup step with
      | none => return es.put step (.table .longerHeader (← descend change path []))
      | some (.table origin inner) =>
          return es.put step (.table origin (← descend change path inner))
      | some (.tables (latest :: earlier)) =>
          return es.put step (.tables ((← descend change path latest) :: earlier))
      | _ => none

def openTable (key : String) (es : Entries) : Option Entries :=
  match es.lookup key with
  | none => some (es.put key (.table .header []))
  | some (.table .longerHeader inner) => some (es.put key (.table .header inner))
  | _ => none

def openItem (key : String) (es : Entries) : Option Entries :=
  match es.lookup key with
  | none => some (es.put key (.tables [[]]))
  | some (.tables tables) => some (es.put key (.tables ([] :: tables)))
  | _ => none

end Entries

mutual

def Entry.toDocument : Entry → Document
  | .value d => d
  | .table _ entries => .record none (fieldsOf entries)
  | .tables latest => .list (recordsOf latest)

def fieldsOf : List (String × Entry) → List (String × Document)
  | [] => []
  | (key, e) :: rest => (key, e.toDocument) :: fieldsOf rest

def recordsOf : List (List (String × Entry)) → List Document
  | [] => []
  | entries :: earlier => recordsOf earlier ++ [.record none (fieldsOf entries)]

end

end Chronicle.Config.Toml
