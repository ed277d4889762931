import Chronicle.Config.Json
import Chronicle.Config.Ron
import Chronicle.Config.Toml
import Chronicle.Path

/-!
# Configuration formats

A configuration file has one of three formats, known by the extension of its
name.
-/

namespace Chronicle.Config

inductive Format where
  | ron
  | toml
  | json
  deriving DecidableEq, Repr

namespace Format

def all : List Format := [.ron, .toml, .json]

def extension : Format → String
  | .ron => "ron"
  | .toml => "toml"
  | .json => "json"

def ofPath? (path : String) : Option Format :=
  all.find? fun f => Path.extension? path = some f.extension

def parse? (f : Format) (cs : List Char) : Option Document :=
  match f with
  | .ron => Ron.parse? cs
  | .toml => Toml.parse? cs
  | .json => Json.parse? cs

/-- A TOML list may hold more items than there are fields to give. -/
def isStrict (f : Format) : Bool :=
  f != .toml

def limits? (f : Format) (text : String) : Option Limits := do
  (← f.parse? text.toList).limits? f.isStrict

end Format

end Chronicle.Config
