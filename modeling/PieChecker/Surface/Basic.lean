import PieChecker.Operator
import PieChecker.Surface.Operator
import PieChecker.Text.Span

set_option autoImplicit false

/-!
# Surface expressions

Expressions as a program writes them, every one with the span of text that it was read from.
Binders may be grouped: a `λ` has a list of parameters, `Π` and `Σ` have a list of typed
binders, an arrow and an application any number of operands.
-/

namespace PieChecker.Surface

/-- A name in binding position. -/
structure Site where
  span : Span
  name : String
  deriving DecidableEq, Repr

/-- A surface expression with its span. -/
inductive Expr where
  | const (span : Span) (c : Const)
  | todo (span : Span)
  | var (span : Span) (x : String)
  | number (span : Span) (n : Nat)
  | quote (span : Span) (a : String)
  | unary (span : Span) (o : Unary) (a : Expr)
  | binary (span : Span) (o : Binary) (a b : Expr)
  | ternary (span : Span) (o : Ternary) (a b c : Expr)
  | quaternary (span : Span) (o : Quaternary) (a b c d : Expr)
  | indVec (span : Span) (length target motive base step : Expr)
  /-- An arrow has a first domain and a list of the types after it. -/
  | arrow (span : Span) (domain : Expr) (rest : List Expr)
  | quant (span : Span) (q : Quantifier) (binders : List (Site × Expr)) (body : Expr)
  | lambda (span : Span) (parameters : List Site) (body : Expr)
  | apply (span : Span) (function : Expr) (arguments : List Expr)
  deriving Repr

namespace Expr

/-- The span of text that an expression was read from. -/
def span : Expr → Span
  | const s _ | todo s | var s _ | number s _ | quote s _ | unary s _ _ | binary s _ _ _
  | ternary s _ _ _ _
  | quaternary s _ _ _ _ _ | indVec s _ _ _ _ _ | arrow s _ _ | quant s _ _ _ | lambda s _ _
  | apply s _ _ => s

mutual

/-- Every name that occurs in an expression, bound or free, in the order of the text. Quoted
names do not count. -/
def names : Expr → List String
  | const _ _ | todo _ | number _ _ | quote _ _ => []
  | var _ x => [x]
  | unary _ _ a => a.names
  | binary _ _ a b => a.names ++ b.names
  | ternary _ _ a b c => a.names ++ b.names ++ c.names
  | quaternary _ _ a b c d => a.names ++ b.names ++ c.names ++ d.names
  | indVec _ a b c d e => a.names ++ b.names ++ c.names ++ d.names ++ e.names
  | arrow _ domain rest => domain.names ++ namesOfList rest
  | quant _ _ binders body => namesOfBinders binders ++ body.names
  | lambda _ parameters body => parameters.map Site.name ++ body.names
  | apply _ function arguments => function.names ++ namesOfList arguments

/-- The names that occur in a list of expressions. -/
def namesOfList : List Expr → List String
  | [] => []
  | e :: es => e.names ++ namesOfList es

/-- The names that occur in a list of typed binders, each binder's own name before those of its
type. -/
def namesOfBinders : List (Site × Expr) → List String
  | [] => []
  | (site, ty) :: binders => site.name :: (ty.names ++ namesOfBinders binders)

end

end Expr

/-- A form at the top level of a program. -/
inductive Form where
  | claim (site : Site) (ty : Expr)
  | define (site : Site) (term : Expr)
  | checkSame (ty left right : Expr)
  | expression (e : Expr)
  deriving Repr

end PieChecker.Surface
