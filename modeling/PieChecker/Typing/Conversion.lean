import PieChecker.Context
import PieChecker.Core.Alpha

set_option autoImplicit false

/-!
# Comparing values

Two values of one type are the same if they read back to terms that are equal up to bound names.
-/

namespace PieChecker.Context

variable (E : Engine) (Γ : Context)

/-- Succeeds if two values of a type are the same. -/
def convert (ty left right : Value) : Except (Interrupt Cause) Unit := do
  let leftTerm ← Γ.readBack E ty left
  let rightTerm ← Γ.readBack E ty right
  if leftTerm.alphaEquivalent rightTerm then return ()
  else .error (.rejected (.notTheSame (← Γ.readBackType E ty) leftTerm rightTerm))

/-- Succeeds if two types are the same. -/
def sameType (expected found : Value) : Except (Interrupt Cause) Unit := do
  let expectedTerm ← Γ.readBackType E expected
  let foundTerm ← Γ.readBackType E found
  if expectedTerm.alphaEquivalent foundTerm then return ()
  else .error (.rejected (.typeMismatch expectedTerm foundTerm))

end PieChecker.Context
