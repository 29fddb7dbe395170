import PieChecker.Core.Printer

set_option autoImplicit false

/-!
# Causes of rejection

Why a program is rejected, as data, and the one place where the wording of each cause stands.
-/

namespace PieChecker

/-- The type formers that an elimination or a constructor may require. -/
inductive Former where
  | pi | sigma | list | equal | vec | either
  deriving DecidableEq, Repr

/-- The shapes that the length of a list may be required to have. -/
inductive LengthShape where
  | zero | successor
  deriving DecidableEq, Repr

/-- Why a program is rejected. -/
inductive Cause where
  | unboundVariable (x : String)
  | duplicateBinding (x : String)
  | typeMismatch (expected found : Core)
  | notTheSame (ty left right : Core)
  | expectedFormer (former : Former) (found : Core)
  | illTypedMotive (expected : Core) (cause : Cause)
  | cannotSynthesize
  | notAType (found : Core)
  | universeHasNoType
  | numeralTooLarge (n : Nat)
  | vecLengthMismatch (expected : LengthShape) (found : Core)
  | alreadyDefined (x : String)
  | notClaimed (x : String)
  deriving DecidableEq, Repr

/-- The largest number that a program may write. Numbers are chains of `add1`, and evaluation
recurses along them. -/
def maxNumeral : Nat := 1000

namespace Cause

/-- The wording of a cause. -/
def message : Cause → String
  | unboundVariable x => "unknown variable " ++ x
  | duplicateBinding x => "the name " ++ x ++ " is already bound"
  | typeMismatch expected found => "expected " ++ expected.print ++ " but found " ++ found.print
  | notTheSame ty left right =>
    "the expressions " ++ left.print ++ " and " ++ right.print ++
      " are not the same " ++ ty.print
  | expectedFormer .pi found => "expected a function type (Π) but found " ++ found.print
  | expectedFormer .sigma found => "expected a pair type (Σ) but found " ++ found.print
  | expectedFormer .list found => "expected a List type but found " ++ found.print
  | expectedFormer .equal found => "expected an equality type (=) but found " ++ found.print
  | expectedFormer .vec found => "expected a Vec type but found " ++ found.print
  | expectedFormer .either found => "expected an Either type but found " ++ found.print
  | illTypedMotive expected cause =>
    "the motive should have type " ++ expected.print ++ ": " ++ cause.message
  | cannotSynthesize => "cannot determine the type of this expression; annotate it with `the`"
  | notAType found => "expected a type but found an expression of type " ++ found.print
  | universeHasNoType => "U is a type, but it does not have a type"
  | numeralTooLarge n =>
    "the numeral " ++ toString n ++ " is larger than the largest supported numeral " ++
      toString maxNumeral
  | vecLengthMismatch .zero found =>
    "expected a Vec of length zero but its length is " ++ found.print
  | vecLengthMismatch .successor found =>
    "expected a Vec of length (add1 n) but its length is " ++ found.print
  | alreadyDefined x => "the name " ++ x ++ " is already defined"
  | notClaimed x => "the name " ++ x ++ " must be claimed before it is defined"

end Cause

/-- A cause of rejection and the expression or name that it is about. -/
structure TypeError where
  span : Span
  cause : Cause
  deriving DecidableEq, Repr

/-- The one-line description of where an error is. -/
def TypeError.display (e : TypeError) : String :=
  "ill-typed expression at (" ++ toString e.span.start ++ ", " ++ toString e.span.stop ++ ")"

end PieChecker
