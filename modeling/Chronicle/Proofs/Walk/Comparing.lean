import Chronicle.Proofs.Walk.Reporting
import Chronicle.Proofs.Walk.Restoring

/-!
# Keys that cannot be compared

A restore stops short only where it compares keys: one of them leads to an object
that is being filled, or both lead back to where the comparison was before.  The
keys are those of a container of the registry, and the objects those of the moment.
-/

namespace Chronicle

open Success

def Layout.order? : Layout → Option KeyOrder
  | .set _ order | .map _ _ order => some order
  | _ => none

def Registry.Refuses (r : Registry) (e : WalkError) (s : ReadState) : Prop :=
  ∃ type layout order v w, r.reader type = .ok layout ∧ layout.order? = some order ∧
    Read.verdict type.name (order.compare s.heap s.filling v w) = .error e

def Registry.Explains (r : Registry) (told : WalkError) {ε : Type} (cause : ε → WalkError) (e : ε)
    (s : ReadState) : Prop :=
  cause e = told → r.Refuses told s

namespace Read.Turns

variable {c : ReadContext} {told : WalkError} {ε α : Type}

/-- Work that fails with a certain cause where it compares keys, unless a call that
it made failed so. -/
abbrev Explained (c : ReadContext) (told : WalkError) (cause : ε → WalkError)
    (x : ReadTurn ε α) : Prop :=
  x.Owns (fun failure => failure.1 = told) (c.registry.Explains told cause)

theorem Explained.relabel {ε' : Type} {cause : ε → WalkError} {cause' : ε' → WalkError}
    {x : ReadTurn ε α} {g : ε → ε'} (same : ∀ e, cause' (g e) = cause e)
    (explained : Explained c told cause x) : Explained c told cause' (x.relabel g) :=
  Pending.Owns.relabel (fun e _ explains found => explains ((same e).symm.trans found)) explained

section

variable (crash : told.kind = .crash)
include crash

end

section

variable (crash : told.kind = .crash)
include crash

end

end Read.Turns

end Chronicle
