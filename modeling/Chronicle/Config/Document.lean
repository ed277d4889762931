import Chronicle.Codec.Scalar
import Chronicle.Limits

/-!
# Documents

What the three notations of a configuration have in common: whole numbers,
records with named fields and lists by position.  A document keeps no more of
other values than that they are there.
-/

namespace Chronicle.Config

inductive Document where
  | natural (n : Nat)
  | list (items : List Document)
  /-- Fields with the record's own name, where the notation lets one be
  given. -/
  | record (name : Option String) (fields : List (String × Document))
  /-- A value that is neither a limit nor a group of limits. -/
  | other
  deriving Repr

namespace Document

/-- The fields of a record, in a given order and each at most once; fields
with other names do not matter.  A list gives the first fields by position,
and a strict one has no items beyond them. -/
def fields? (strict : Bool) (name : String) (names : List String) :
    Document → Option (List (Option Document))
  | .record given fields =>
      if given.all (· == name) then
        names.mapM fun field =>
          match fields.filter (·.1 == field) with
          | [] => some none
          | [(_, d)] => some (some d)
          | _ => none
      else none
  | .list items =>
      if strict && names.length < items.length then none
      else some ((List.range names.length).map (items[·]?))
  | _ => none

def limit? : Document → Option Nat
  | .natural n => if Scalar.u64.Holds n then some n else none
  | _ => none

def part? {α : Type} (read : Document → Option α) (default : α) : Option Document → Option α
  | none => some default
  | some d => read d

def walkLimits? (strict : Bool) (d : Document) : Option WalkLimits := do
  let base : WalkLimits := {}
  match ← d.fields? strict "WalkConfig" ["max_depth", "max_sequence_len"] with
  | [depth, sequence] =>
      return ⟨← part? limit? base.maxDepth depth, ← part? limit? base.maxSequence sequence⟩
  | _ => none

def loopLimits? (strict : Bool) (d : Document) : Option LoopLimits := do
  let base : LoopLimits := {}
  match ← d.fields? strict "LoopConfig" ["max_comment_len", "max_payload_len"] with
  | [comment, payload] =>
      return ⟨← part? limit? base.maxComment comment, ← part? limit? base.maxPayload payload⟩
  | _ => none

def limits? (strict : Bool) (d : Document) : Option Limits := do
  match ← d.fields? strict "RewindConfig" ["walk", "loop"] with
  | [walk, loop] =>
      return ⟨← part? (walkLimits? strict) {} walk, ← part? (loopLimits? strict) {} loop⟩
  | _ => none

end Document

end Chronicle.Config
