import Chronicle.Bytes
import Chronicle.Path

/-!
# Directories

A directory maps file names to contents.  It holds no directories of its own.
-/

namespace Chronicle

/-- File names with their contents, no name twice. -/
structure Directory where
  files : List (String × Bytes) := []
  deriving DecidableEq, Repr

namespace Directory

def get? (d : Directory) (name : String) : Option Bytes :=
  d.files.lookup name

def put (d : Directory) (name : String) (content : Bytes) : Directory :=
  ⟨(name, content) :: d.files.filter (·.1 != name)⟩

def read? (d : Directory) (path : String) : Option Bytes :=
  match Path.place path with
  | .file name => d.get? name
  | _ => none

@[simp] theorem get?_put_self (d : Directory) (name : String) (content : Bytes) :
    (d.put name content).get? name = some content := by
  simp [get?, put]

end Directory

end Chronicle
