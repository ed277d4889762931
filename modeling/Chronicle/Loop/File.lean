import Chronicle.Directory
import Chronicle.Loop.Reader
import Chronicle.Loop.Writer

/-!
# Loop files

A session opens a file of a directory afresh or at its end, appends records
and flushes; a crash may cut octets off the end of a file at any time between
sessions.  A directory can be opened for reading, but to read from it fails.
-/

namespace Chronicle.Loop

inductive OpenMode where
  | create
  | append
  deriving DecidableEq, Repr

def opened (d : Directory) (mode : OpenMode) (name : String) : Bytes :=
  match mode with
  | .create => []
  | .append => (d.get? name).getD []

/-- Append the records in turn; a refused record does not stop the next. -/
def appendAll (w : Writer) : List Record → List (Except LoopError Unit) × Writer
  | [] => ([], w)
  | rec :: rest =>
      match Writer.append rec w with
      | .ok _ w => let (results, w) := appendAll w rest; (.ok () :: results, w)
      | .error e w => let (results, w) := appendAll w rest; (.error e :: results, w)

/-- A writing session: the outcome for each record and how many were
written. -/
def session (d : Directory) (mode : OpenMode) (path : String) (records : List Record) :
    Except LoopError ((List (Except LoopError Unit) × Nat) × Directory) :=
  match Path.place path with
  | .file name =>
      let (results, w) := appendAll { sink := { content := opened d mode name } } records
      .ok ((results, w.recordsWritten), d.put name w.sink.content)
  | _ => .error .io

def truncate (d : Directory) (path : String) (count : Nat) : Directory :=
  match Path.place path with
  | .file name =>
      match d.get? name with
      | none => d
      | some content => d.put name (content.take (content.length - count))
  | _ => d

def openReader (d : Directory) (path : String) : Except LoopError Reader :=
  match Path.place path with
  | .file name =>
      match d.get? name with
      | none => .error .io
      | some content => .ok (Reader.ofBytes content {})
  | .directory => .ok { source := { run := [], fails := true }, limits := {} }
  | .nowhere => .error .io

def readRecords (d : Directory) (path : String) : Except LoopError (List Record) := do
  (← openReader d path).collect

end Chronicle.Loop
