import Chronicle.Value

/-!
# Assets

Assets are written as paths and loaded again by path.  The host says how a
handle is named and what a path leads to; a library does both by search.
-/

namespace Chronicle

/-- What a path leads to: a handle and the type of its content. -/
structure LoadedAsset where
  handle : AssetHandle
  type : Ty
  deriving DecidableEq, Repr

structure AssetResolver where
  pathOf : AssetHandle → Option String
  load : Ty → String → Option LoadedAsset

structure AssetEntry where
  path : Option String
  type : Ty
  deriving DecidableEq, Repr

abbrev AssetLibrary := List AssetEntry

namespace AssetLibrary

/-- A handle has the path of the very entry it denotes; a path leads to the
first entry that carries it, whatever type is asked for. -/
def resolver (library : AssetLibrary) : AssetResolver where
  pathOf handle :=
    match handle with
    | .entry index => library[index]?.bind AssetEntry.path
    | .loose _ => none
  load _ path :=
    (library.zipIdx.find? fun (entry, _) => entry.path = some path).map
      fun (entry, index) => ⟨.entry index, entry.type⟩

end AssetLibrary

end Chronicle
