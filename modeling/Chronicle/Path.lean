/-!
# Paths

A path is a list of components between slashes.  Empty components and single
dots stay where they are, and two dots lead to the directory around.
-/

namespace Chronicle.Path

def components (cs : List Char) : List (List Char) :=
  cs.foldr
    (fun c parts =>
      if c = '/' then [] :: parts
      else match parts with
        | [] => [[c]]
        | part :: rest => (c :: part) :: rest)
    [[]]

def steps (path : String) : List (List Char) :=
  (components path.toList).filter fun part => part != [] && part != ['.']

def nameOf? (path : String) : Option (List Char) :=
  (steps path).getLast?.filter (· != ['.', '.'])

def fileName? (path : String) : Option String :=
  (nameOf? path).map String.ofList

/-- What follows the last dot of a name, if something precedes that dot. -/
def extensionOf? (name : List Char) : Option (List Char) :=
  match name.reverse.dropWhile (· != '.') with
  | _ :: _ :: _ => some (name.reverse.takeWhile (· != '.')).reverse
  | _ => none

def extension? (path : String) : Option String :=
  ((nameOf? path).bind extensionOf?).map String.ofList

/-- What a path leads to from a directory that holds files only. -/
inductive Place where
  /-- A file of the directory, whether or not it is there. -/
  | file (name : String)
  /-- The directory, or one around it. -/
  | directory
  | nowhere
  deriving DecidableEq, Repr

def maxName : Nat := 255

/-- The most octets in a path, with room left for the way to the directory.
Every octet counts, also those of a component that stays where it is. -/
def maxPath : Nat := 4079

/-- Files are not gone through, so a path leads to one only if it is the name of
the file after nothing but dots and slashes. -/
def place (path : String) : Place :=
  if '\x00' ∈ path.toList || maxPath < path.utf8ByteSize then .nowhere
  else if (steps path).all (· == ['.', '.']) then .directory
  else match steps path with
    | [name] =>
        if path.toList.head? != some '/' && (components path.toList).getLast? == some name &&
            (String.ofList name).utf8ByteSize ≤ maxName then
          .file (String.ofList name)
        else .nowhere
    | _ => .nowhere

end Chronicle.Path
