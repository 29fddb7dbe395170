set_option autoImplicit false

/-!
# Spans

Positions in a source text count the bytes of its UTF-8 form. A `Span` is a pair of positions; a
lexeme or an expression covers the bytes from `start` up to, and without, `stop`.
-/

namespace PieChecker

/-- A range of bytes of a source text. -/
structure Span where
  start : Nat
  stop : Nat
  deriving DecidableEq, Repr, Inhabited

end PieChecker
