set_option autoImplicit false

/-!
# Sets of code points

A property of characters is given by the code points that have it, as a list of closed
intervals.
-/

namespace PieChecker.Text

/-- Does a character lie in one of the closed intervals of code points? -/
def inIntervals (intervals : List (Nat × Nat)) (c : Char) : Bool :=
  intervals.any fun (first, last) => first ≤ c.toNat && c.toNat ≤ last

end PieChecker.Text
