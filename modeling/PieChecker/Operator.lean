set_option autoImplicit false

/-!
# Constants and operators

The vocabulary that surface expressions and core terms share: constants without operands,
operators with one operand, and the two binders of dependent types.
-/

namespace PieChecker

/-- The constants of the language. -/
inductive Const where
  | univ | nat | zero | atom | trivial | sole | nil | absurd | vecnil
  deriving DecidableEq, Repr

namespace Const

/-- How a constant is written. -/
def spelling : Const → String
  | univ => "U"
  | nat => "Nat"
  | zero => "zero"
  | atom => "Atom"
  | trivial => "Trivial"
  | sole => "sole"
  | nil => "nil"
  | absurd => "Absurd"
  | vecnil => "vecnil"

end Const

/-- The operators with one operand. -/
inductive Unary where
  | add1 | car | cdr | list | same | symm | head | tail | left | right
  deriving DecidableEq, Repr

namespace Unary

/-- How an operator with one operand is written. -/
def spelling : Unary → String
  | add1 => "add1"
  | car => "car"
  | cdr => "cdr"
  | list => "List"
  | same => "same"
  | symm => "symm"
  | head => "head"
  | tail => "tail"
  | left => "left"
  | right => "right"

end Unary

/-- The binders of dependent types: `Π` for functions, `Σ` for pairs. -/
inductive Quantifier where
  | pi | sigma
  deriving DecidableEq, Repr

end PieChecker
