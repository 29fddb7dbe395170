import PieChecker.Operator
import PieChecker.Text.Span

set_option autoImplicit false

/-!
# Core terms

The terms that elaboration produces. Only unfinished parts remember where they were written. An
eliminator carries the types that evaluation and read-back need, so a core term is evaluated
without a context.
-/

namespace PieChecker

namespace Core

/-- The operators with two operands. -/
inductive Binary where
  | the | apply | cons | listCons | indAbsurd | trans | vec | vecCons | either
  deriving DecidableEq, Repr

/-- The operators with three operands. -/
inductive Ternary where
  /-- A type and the two terms of that type that are equal. -/
  | equal
  /-- Target, motive, base. -/
  | replace
  /-- Target, type of the results, function. -/
  | cong
  /-- Target, motive, base. -/
  | indEq
  deriving DecidableEq, Repr

/-- The operators with four operands. -/
inductive Quaternary where
  /-- Target, type of the base, base, step. -/
  | whichNat | iterNat | recNat | recList
  /-- Target, motive, base, step. -/
  | indNat | indList
  /-- Target, motive, and a method for each side. -/
  | indEither
  deriving DecidableEq, Repr

end Core

/-- A core term. -/
inductive Core where
  | var (x : String)
  | const (c : Const)
  | quote (a : String)
  /-- An unfinished part: where it was written, and the type that it must have. -/
  | todo (span : Span) (ty : Core)
  | quant (q : Quantifier) (x : String) (base family : Core)
  | lam (x : String) (body : Core)
  | unary (o : Unary) (a : Core)
  | binary (o : Core.Binary) (a b : Core)
  | ternary (o : Core.Ternary) (a b c : Core)
  | quaternary (o : Core.Quaternary) (a b c d : Core)
  | indVec (length target motive base step : Core)
  deriving DecidableEq, Repr

namespace Core

@[match_pattern] abbrev univ : Core := const .univ
@[match_pattern] abbrev nat : Core := const .nat
@[match_pattern] abbrev zero : Core := const .zero
@[match_pattern] abbrev absurd : Core := const .absurd
@[match_pattern] abbrev add1 (n : Core) : Core := unary .add1 n
@[match_pattern] abbrev pi (x : String) (base family : Core) : Core := quant .pi x base family
@[match_pattern] abbrev sigma (x : String) (base family : Core) : Core :=
  quant .sigma x base family
@[match_pattern] abbrev the (ty term : Core) : Core := binary .the ty term
@[match_pattern] abbrev apply (function argument : Core) : Core :=
  binary .apply function argument

/-- The numeral `n`: so many times `add1` around `zero`. -/
def numeral : Nat → Core
  | 0 => zero
  | n + 1 => add1 (numeral n)

/-- The number that a closed numeral stands for. -/
def asNumeral? : Core → Option Nat
  | zero => some 0
  | add1 n => n.asNumeral?.map (· + 1)
  | _ => none

/-- Does the name occur free in the term? -/
def mentions (y : String) : Core → Bool
  | var x => x = y
  | const _ | quote _ => false
  | todo _ ty => ty.mentions y
  | quant _ x base family => base.mentions y || (x ≠ y && family.mentions y)
  | lam x body => x ≠ y && body.mentions y
  | unary _ a => a.mentions y
  | binary _ a b => a.mentions y || b.mentions y
  | ternary _ a b c => a.mentions y || b.mentions y || c.mentions y
  | quaternary _ a b c d => a.mentions y || b.mentions y || c.mentions y || d.mentions y
  | indVec l t m b s =>
    l.mentions y || t.mentions y || m.mentions y || b.mentions y || s.mentions y

/-- The unfinished parts of a term, from left to right, each with its type. Those inside such a
type do not count. -/
def holes : Core → List (Span × Core)
  | var _ | const _ | quote _ => []
  | todo span ty => [(span, ty)]
  | quant _ _ base family => base.holes ++ family.holes
  | lam _ body => body.holes
  | unary _ a => a.holes
  | binary _ a b => a.holes ++ b.holes
  | ternary _ a b c => a.holes ++ b.holes ++ c.holes
  | quaternary _ a b c d => a.holes ++ b.holes ++ c.holes ++ d.holes
  | indVec l t m b s => l.holes ++ t.holes ++ m.holes ++ b.holes ++ s.holes

end Core

end PieChecker
