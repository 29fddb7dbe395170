import PieChecker.Surface.Reader

set_option autoImplicit false

/-!
# The grammar as parsing expressions

The rules of the grammar as parsing expressions: alternatives are tried in the order in which
they are listed, and the first one that matches is taken; a repetition takes as many items as
there are and never gives one back. If an alternative fails, the next one starts again where it
had started.

Of all lexemes that were tested in vain, the furthest ones are kept on record, with all that
they were tested for. The record is never taken back: a text that does not match is reported
with what is on record in the end, whichever alternatives it comes from.

The readers of `PieChecker.Surface.Reader` look at one lexeme and never start again. They read
the same texts and report the same errors.
-/

namespace PieChecker.Surface

/-- Records that the next one of the lexemes that are left was tested in vain. Only the furthest
place is kept. -/
def Refusal.record (furthest : Refusal) (rest : List Lexeme) (π : Expectation) : Refusal :=
  if rest.length < furthest.rest.length then ⟨rest, [π]⟩
  else if rest.length = furthest.rest.length then ⟨rest, furthest.expected.insert π⟩
  else furthest

/-- A parsing expression takes lexemes from the front, or fails. A failure leaves no other trace
than the record of the furthest place. -/
abbrev Peg := StateT (List Lexeme) (OptionT (StateM Refusal))

namespace Peg

/-- Fails, since the next lexeme was tested in vain. -/
def fail {α : Type} (π : Expectation) : Peg α := do
  let rest ← get
  modifyThe Refusal (·.record rest π)
  failure

/-- Takes the next lexeme if the expectation holds of it. -/
def test (π : Expectation) : Peg Lexeme := do
  match ← get with
  | [] => fail π
  | lexeme :: rest =>
    if π.isMetBy lexeme.token then
      set rest
      return lexeme
    else fail π

/-- The first of the alternatives that matches. -/
def firstOf {α : Type} : List (Peg α) → Peg α
  | [] => failure
  | p :: ps => p <|> firstOf ps

/-- As many items as there are, up to a bound. -/
def manyUpTo {α : Type} (item : Peg α) : Nat → Peg (List α)
  | 0 => return []
  | bound + 1 => (do return (← item) :: (← manyUpTo item bound)) <|> return []

/-- As many items as there are. Each of them takes a lexeme, so the number of those bounds
theirs. -/
def many {α : Type} (item : Peg α) : Peg (List α) := do
  manyUpTo item ((← get).length + 1)

/-- Blanks and comments. -/
def blanks : Peg Unit := do
  let _ ← many (test .blank)

/-- One item or more, with blanks between them. -/
def separated {α : Type} (item : Peg α) : Peg (List α) := do
  return (← item) :: (← many do blanks; item)

/-- An item in brackets. -/
def bracketed {α : Type} (item : Peg α) : Peg α := do
  let _ ← test .opening
  blanks
  let a ← item
  blanks
  let _ ← test .closing
  return a

/-- A name in binding position. -/
def site : Peg Site := do
  let lexeme ← test .name
  return ⟨lexeme.span, lexeme.text⟩

/-- A number of at most 64 bits. A larger one is refused after it was taken. -/
def number : Peg Nat := do
  let n := (← test .number).decimal
  if n < UInt64.size then return n else fail .smallNumber

/-- A tick and the name or keyword that it quotes. -/
def quoted : Peg String := do
  let _ ← test .tick
  return (← test .nameOrKeyword).text

/-- The span from the first to the last of some lexemes. -/
def spanOf : List Lexeme → Span
  | [] => ⟨0, 0⟩
  | first :: lexemes => ⟨first.start, (lexemes.getLastD first).stop⟩

/-- An expression that is made from the span of the lexemes that are taken for it. -/
def spanned (item : Peg (Span → Expr)) : Peg Expr := do
  let all ← get
  let make ← item
  let rest ← get
  return make (spanOf (all.take (all.length - rest.length)))

section Operands

variable (expression : Peg Expr)

/-- An expression with blanks before it. -/
def operand : Peg Expr := do
  blanks
  expression

/-- A typed binder: a name and its type in brackets. -/
def typedBinder : Peg (Site × Expr) :=
  bracketed do return (← site, ← operand expression)

/-- What a keyword needs after it, and the expression that it then makes. -/
def afterKeyword : Keyword → Peg (Span → Expr)
  | .const c => return (.const · c)
  | .todo => return .todo
  | .unary o => do return (.unary · o (← operand expression))
  | .binary o => do
    let a ← operand expression
    let b ← operand expression
    return (.binary · o a b)
  | .ternary o => do
    let a ← operand expression
    let b ← operand expression
    let c ← operand expression
    return (.ternary · o a b c)
  | .quaternary o => do
    let a ← operand expression
    let b ← operand expression
    let c ← operand expression
    let d ← operand expression
    return (.quaternary · o a b c d)
  | .indVec => do
    let length ← operand expression
    let target ← operand expression
    let motive ← operand expression
    let base ← operand expression
    let step ← operand expression
    return (.indVec · length target motive base step)
  | .arrow => do
    let domain ← operand expression
    blanks
    let rest ← separated expression
    return (.arrow · domain rest)
  | .quant q => do
    blanks
    let binders ← bracketed (separated (typedBinder expression))
    let body ← operand expression
    return (.quant · q binders body)
  | .lambda => do
    blanks
    let parameters ← bracketed (separated site)
    let body ← operand expression
    return (.lambda · parameters body)
  | .quote => do
    blanks
    let atom ← test .nameOrKeyword
    return (.quote · atom.text)
  | .opener _ => failure

/-- A keyword and what it needs. -/
def keyed (k : Keyword) : Peg (Span → Expr) := do
  let _ ← test (.keyword k)
  afterKeyword expression k

/-- A function and its arguments. -/
def application : Peg (Span → Expr) := do
  let function ← expression
  blanks
  let arguments ← separated expression
  return (.apply · function arguments)

/-- What may stand between the brackets of an expression. -/
def compound : Peg (Span → Expr) :=
  firstOf (Keyword.compounds.map (keyed expression)) <|> application expression

/-- What the keyword of a top-level form needs after it, and the form that it then makes. -/
def afterOpener : Opener → Peg Form
  | .claim => do
    blanks
    let x ← site
    let ty ← operand expression
    return .claim x ty
  | .define => do
    blanks
    let x ← site
    let term ← operand expression
    return .define x term
  | .checkSame => do
    let ty ← operand expression
    let left ← operand expression
    let right ← operand expression
    return .checkSame ty left right

/-- A top-level form with a keyword of its own. -/
def opened (o : Opener) : Peg Form := bracketed do
  let _ ← test (.keyword (.opener o))
  afterOpener expression o

/-- A top-level form. -/
def topLevel : Peg Form :=
  opened expression .claim <|> opened expression .define <|> opened expression .checkSame <|>
    (do return .expression (← expression))

end Operands

/-- An expression, with brackets nested less deeply than the bound. -/
def expression : Nat → Peg Expr
  | 0 => failure
  | depth + 1 => spanned <|
    bracketed (compound (expression depth)) <|>
    firstOf (Keyword.atoms.map (keyed (expression depth))) <|>
    (do let a ← quoted; return (.quote · a)) <|>
    (do let n ← number; return (.number · n)) <|>
    (do let lexeme ← test .name; return (.var · lexeme.text))

/-- A program: forms with blanks around them. -/
def program (depth : Nat) : Peg (List Form) := do
  blanks
  let forms ← separated (topLevel (expression depth)) <|> return []
  blanks
  return forms

/-- One expression with blanks around it. -/
def loneExpression (depth : Nat) : Peg Expr := do
  blanks
  let e ← expression depth
  blanks
  return e

/-- A match that leaves lexemes fails, since the text should have ended there. What is reported
of a failure is the furthest place on record. -/
def conclude {α : Type} :
    Option (α × List Lexeme) × Refusal → Except Refusal (α × List Lexeme)
  | (some (a, []), _) => .ok (a, [])
  | (some (_, rest), furthest) => .error (furthest.record rest .endOfText)
  | (none, furthest) => .error furthest

/-- Matches all lexemes. -/
def matchAll {α : Type} (p : Peg α) : Reader α := fun lexemes =>
  conclude (p lexemes ⟨lexemes, []⟩)

/-- The top-level forms of a text, by its parsing expression. -/
def parseLexemes (size : Nat) (lexemes : List Lexeme) : Except ParseError (List Form) :=
  readAll (matchAll (program (lexemes.length + 1))) size lexemes

/-- The lexemes of a text as one expression, by its parsing expression. -/
def parseLexemesAsExpression (size : Nat) (lexemes : List Lexeme) : Except ParseError Expr :=
  readAll (matchAll (loneExpression (lexemes.length + 1))) size lexemes

end Peg

end PieChecker.Surface
