import Chronicle.Config.Format
import Chronicle.Directory
import Chronicle.Text.Utf8

/-!
# Loading a configuration

A file is parsed in the format that its name tells, and the limits it sets must
be in range.  Without a file by its path, one is looked for by its base name in
each format; two are a conflict, and none leaves every limit at its default.
The parsers are the host's: `Format.limits?` is the family that runs.
-/

namespace Chronicle.Config

inductive LoadError where
  | unsupportedFormat (path : String)
  | conflictingFormats (a b : String)
  | parse (path : String)
  | invalid (path : String) (cause : InvalidLimit)
  /-- No file, or no text in it. -/
  | io
  deriving DecidableEq, Repr

def detect (path : String) : Except LoadError Format :=
  match Format.ofPath? path with
  | some f => .ok f
  | none => .error (.unsupportedFormat path)

def readText? (d : Directory) (path : String) : Option String := do
  Utf8.decode? (← d.read? path)

def candidate (base : String) (f : Format) : String :=
  base ++ "." ++ f.extension

def isPresent (d : Directory) (path : String) : Bool :=
  (d.read? path).isSome

/-- The path of the one file with a base name, if there is any. -/
def find (d : Directory) (base : String) : Except LoadError (Option String) :=
  match (Format.all.map (candidate base)).filter (isPresent d) with
  | [] => .ok none
  | [path] => .ok (some path)
  | a :: b :: _ => .error (.conflictingFormats a b)

section

variable (parse? : Format → String → Option Limits)

def load (d : Directory) (path : String) : Except LoadError Limits := do
  let f ← detect path
  match readText? d path with
  | none => throw .io
  | some text =>
      match parse? f text with
      | none => throw (.parse path)
      | some l =>
          match l.validate with
          | .ok _ => return l
          | .error cause => throw (.invalid path cause)

def loadBase (d : Directory) (base : String) : Except LoadError Limits := do
  match ← find d base with
  | some path => load parse? d path
  | none => return {}

end

end Chronicle.Config
