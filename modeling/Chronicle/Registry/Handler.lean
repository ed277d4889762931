import Chronicle.KeyOrder
import Chronicle.Plain.Packed
import Chronicle.WalkError

/-!
# Handlers

A handler says for one type how fresh values are made and how values are
written and read.  What an operation does is data, a layout, and the types it
walks are listed beside it as dependencies.
-/

namespace Chronicle

/-- What an operation does with a value of its type. -/
inductive Layout where
  /-- No octets. -/
  | nothing
  | bool
  | scalar (s : Scalar)
  | text
  /-- A length and each item. -/
  | seq (item : Ty)
  /-- A presence octet and the value, if any. -/
  | option (item : Ty)
  /-- A length and the entries in ascending order of their keys. -/
  | map (key value : Ty) (order : KeyOrder)
  /-- A length and the items in ascending order. -/
  | set (item : Ty) (order : KeyOrder)
  /-- The fields in turn. -/
  | record (fields : List Ty)
  /-- The fields in turn, one level deeper. -/
  | nested (fields : List Ty)
  | shared (content : Ty)
  | anyShared
  | asset (content : Ty)
  | packed (format : Plain.PackedFormat)
  /-- A length and octets. -/
  | octets
  /-- A running number of the host; reading drops it. -/
  | counter
  /-- A 32-bit number of which reading keeps the low octet. -/
  | lowOctet
  /-- Nothing: the container has no order of its own. -/
  | refused (container alternative : String)

/-- How fresh values of a type are made. -/
inductive Initializer where
  | template (t : Template)
  /-- A new object around a fresh value of the content's type. -/
  | placeholder
  | refused (container alternative : String)

inductive HandlerKind where
  | value
  | shared
  | polymorphic
  | asset
  | guard (alternative : String)
  deriving DecidableEq, Repr

/-- A type that a handler walks, and whether it makes fresh values of it. -/
structure Dependency where
  type : Ty
  needsInitializer : Bool
  deriving DecidableEq, Repr

structure Handler where
  type : Ty
  /-- The name that stays the same when the type is moved or renamed. -/
  name : String
  kind : HandlerKind := .value
  dependencies : List Dependency := []
  initializer : Option Initializer := none
  writer : Option Layout := none
  reader : Option Layout := none

namespace Handler

def inPlace (type : Ty) : Dependency := ⟨type, false⟩

def creates (type : Ty) : Dependency := ⟨type, true⟩

/-- A handler that writes and reads by one layout, under the type's own
name. -/
def plain (type : Ty) (blank : Value) (layout : Layout) : Handler where
  type
  name := type.name
  initializer := some (.template (.value blank))
  writer := some layout
  reader := some layout

def scalar (s : Scalar) : Handler := plain (.scalar s) (.int 0) (.scalar s)

def seq (item : Ty) : Handler :=
  { plain (.seq item) (.list []) (.seq item) with dependencies := [creates item] }

def option (item : Ty) : Handler :=
  { plain (.option item) .absent (.option item) with dependencies := [creates item] }

def map (key value : Ty) (order : KeyOrder) : Handler :=
  { plain (.map key value) (.list []) (.map key value order) with
    dependencies := [creates key, creates value] }

def set (item : Ty) (order : KeyOrder) : Handler :=
  { plain (.set item) (.list []) (.set item order) with dependencies := [creates item] }

def packed (type : Ty) (blank : Plain.Datum) (format : Plain.PackedFormat) : Handler :=
  plain type (.plain blank) (.packed format)

def shared (content : Ty) : Handler where
  type := .shared content
  name := (Ty.shared content).name
  kind := .shared
  dependencies := [creates content]
  initializer := some .placeholder
  writer := some (.shared content)
  reader := some (.shared content)

def anyShared : Handler :=
  { plain .anyShared .nothing .anyShared with name := "AnyShared", kind := .polymorphic }

def asset (content : Ty) : Handler :=
  { plain (.asset content) (.asset (.loose 0)) (.asset content) with kind := .asset }

/-- A handler whose every operation fails and names the ordered container to
use instead. -/
def guard (container alternative : Ty) : Handler where
  type := container
  name := container.name
  kind := .guard alternative.name
  initializer := some (.refused container.name alternative.name)
  writer := some (.refused container.name alternative.name)
  reader := some (.refused container.name alternative.name)

end Handler

end Chronicle
