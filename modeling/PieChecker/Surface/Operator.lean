set_option autoImplicit false

/-!
# Operators of the surface language

The operators with a fixed number of operands, from two to four, as a program writes them.
-/

namespace PieChecker.Surface

/-- The operators with two operands. -/
inductive Binary where
  | the | pair | cons | listCons | indAbsurd | trans | cong | vec | vecCons | either
  deriving DecidableEq, Repr

/-- How an operator with two operands is written. -/
def Binary.spelling : Binary → String
  | the => "the"
  | pair => "Pair"
  | cons => "cons"
  | listCons => "::"
  | indAbsurd => "ind-Absurd"
  | trans => "trans"
  | cong => "cong"
  | vec => "Vec"
  | vecCons => "vec::"
  | either => "Either"

/-- The operators with three operands. -/
inductive Ternary where
  | whichNat | iterNat | recNat | recList | equal | replace | indEq
  deriving DecidableEq, Repr

/-- How an operator with three operands is written. -/
def Ternary.spelling : Ternary → String
  | whichNat => "which-Nat"
  | iterNat => "iter-Nat"
  | recNat => "rec-Nat"
  | recList => "rec-List"
  | equal => "="
  | replace => "replace"
  | indEq => "ind-="

/-- The operators with four operands. -/
inductive Quaternary where
  | indNat | indList | indEither
  deriving DecidableEq, Repr

/-- How an operator with four operands is written. -/
def Quaternary.spelling : Quaternary → String
  | indNat => "ind-Nat"
  | indList => "ind-List"
  | indEither => "ind-Either"

end PieChecker.Surface
