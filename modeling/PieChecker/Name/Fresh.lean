import PieChecker.Outcome

set_option autoImplicit false

/-!
# Fresh names

A name that is taken gives way to the first of its subscripted successors that is free: `x` to
`x₁`, `x₁` to `x₂`. The subscript of a name is the number that its trailing subscript digits
spell. Subscripts have 64 bits; a larger one counts as the largest, and no name follows that
one.
-/

namespace PieChecker.Name

/-- Is the character one of the digits `₀` to `₉`? -/
def isSubscriptDigit (c : Char) : Bool := '₀' ≤ c && c ≤ '₉'

/-- The largest subscript. -/
def maxSubscript : Nat := UInt64.size - 1

/-- The part of a name before its trailing subscript digits. -/
def stem (name : String) : List Char :=
  (name.toList.reverse.dropWhile isSubscriptDigit).reverse

/-- The number that the trailing subscript digits of a name spell, or the largest subscript if
that is less. It is zero for a name without such digits. -/
def subscript (name : String) : Nat :=
  let digits := (name.toList.reverse.takeWhile isSubscriptDigit).reverse
  min (digits.foldl (fun n c => 10 * n + (c.toNat - '₀'.toNat)) 0) maxSubscript

/-- A number in subscript digits. -/
def subscriptDigits (n : Nat) : List Char :=
  (Nat.toDigits 10 n).map fun c => Char.ofNat ('₀'.toNat + (c.toNat - '0'.toNat))

/-- The name with the given stem and subscript. -/
def subscripted (stem : List Char) (n : Nat) : String :=
  String.ofList (stem ++ subscriptDigits n)

/-- The first free name with the given stem and a subscript from `n` on, among so many
candidates. -/
def search (avoid : List String) (stem : List Char) : (candidates n : Nat) → Outcome String
  | 0, _ => Outcome.overflow
  | candidates + 1, n =>
    if n ≤ maxSubscript then
      if subscripted stem n ∈ avoid then search avoid stem candidates (n + 1) else .ok
        (subscripted stem n)
    else Outcome.overflow

/-- A name that is not to be avoided: the suggestion itself if it is free, and the first free
one of its subscripted successors otherwise. One candidate more than there are names to avoid is
enough. -/
def freshen (avoid : List String) (suggestion : String) : Outcome String :=
  if suggestion ∈ avoid then search avoid (stem suggestion) (avoid.length + 1)
    (subscript suggestion + 1)
  else .ok suggestion

end PieChecker.Name
