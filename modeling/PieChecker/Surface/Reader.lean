import PieChecker.Surface.Basic
import PieChecker.Token.Lexer

set_option autoImplicit false

/-!
# Reading surface expressions

The grammar needs one lexeme of look-ahead: an opening bracket is followed by a keyword that
fixes how many operands come next, or by the function of an application. A reader therefore
never goes back. Where it stops, it knows everything that could have stood there, and that list
is the error.

Blanks may stand between any two lexemes except after a tick, so "blank" is always among what
could have come next, but not there. A number that needs more than 64 bits is read and then
refused, which is reported at the lexeme after it.

An expression is read with a bound on the nesting of brackets. The number of lexemes is such a
bound.
-/

namespace PieChecker

/-- What could have come next where a text could not be read on. -/
inductive Expectation where
  | blank | opening | closing | name | number | tick
  | keyword (k : Keyword)
  | nameOrKeyword
  | smallNumber
  | endOfText
  deriving DecidableEq, Repr

namespace Expectation

/-- The name of an expectation in error messages. -/
def describe : Expectation → String
  | blank => "Whitespace"
  | opening => "ParenL"
  | closing => "ParenR"
  | name => "Identifier"
  | number => "Number"
  | tick => "Tick"
  | keyword k => k.describe
  | nameOrKeyword => "Identifier | Token::Keyword(_"
  | smallNumber => "a number below 2^64"
  | endOfText => "EOF"

/-- Does a token of this class meet the expectation? -/
def isMetBy : Expectation → Token → Bool
  | blank, .blank | opening, .opening | closing, .closing | name, .name | number, .number
  | tick, .tick => true
  | keyword k, .keyword k' => k = k'
  | nameOrKeyword, .name | nameOrKeyword, .keyword _ => true
  | _, _ => false

end Expectation

/-- A text that does not follow the grammar: where, and what could have stood there. -/
structure ParseError where
  span : Span
  expected : List Expectation
  deriving DecidableEq, Repr

namespace ParseError

/-- The names of what was expected, in the order of their code points. -/
def expectedNames (e : ParseError) : List String :=
  (e.expected.map Expectation.describe).mergeSort fun a b => a ≤ b

/-- The one-line description of a parse error. -/
def message (e : ParseError) : String :=
  "expected one of: " ++ ", ".intercalate e.expectedNames

end ParseError

/-- Why a text was not read. -/
inductive ReadError where
  | lex (e : LexError)
  | parse (e : ParseError)
  deriving DecidableEq, Repr

namespace Surface

/-- A refusal of the lexemes that are left, with what could have come next. -/
structure Refusal where
  rest : List Lexeme
  expected : List Expectation
  deriving DecidableEq, Repr

/-- A reader consumes lexemes from the front and hands back the rest, or refuses them. -/
abbrev Reader := StateT (List Lexeme) (Except Refusal)

namespace Reader

/-- Refuses the lexemes that are left. -/
def refuse {α : Type} (expected : List Expectation) : Reader α :=
  fun rest => .error ⟨rest, expected⟩

/-- Skips blanks and comments. -/
def skipBlanks : Reader Unit :=
  modify (·.dropWhile (·.token = .blank))

/-- The class of the next lexeme. -/
def peek : Reader (Option Token) :=
  return (← get).head?.map Lexeme.token

/-- Takes the next lexeme if one of the expectations holds of it, and refuses it otherwise. -/
def take (accepted : List Expectation) (others : List Expectation) :
    Reader Lexeme := fun rest =>
  match rest with
  | [] => .error ⟨rest, others ++ accepted⟩
  | lexeme :: rest' =>
    if accepted.any (·.isMetBy lexeme.token) then .ok (lexeme, rest') else .error
      ⟨rest, others ++ accepted⟩

/-- Skips blanks, then takes one lexeme. -/
def takeNext (accepted : Expectation) (others : List Expectation) : Reader Lexeme := do
  skipBlanks
  take [accepted] (.blank :: others)

/-- Takes the closing bracket of a form and gives the position after it. -/
def close (others : List Expectation) : Reader Nat :=
  return (← takeNext .closing others).stop

/-- Reads items, with blanks before each, as long as the next lexeme is one that `starts` an
item. The number bounds how many are read. -/
def many {α : Type} (starts : Token → Bool) (item : Reader α) : Nat → Reader (List α)
  | 0 => return []
  | bound + 1 => do
    skipBlanks
    match ← peek with
    | some token =>
      if starts token then return (← item) :: (← many starts item bound) else return []
    | none => return []

/-- Reads items as long as there are any. -/
def manyAvailable {α : Type} (starts : Token → Bool) (item : Reader α) : Reader (List α) := do
  many starts item (← get).length

/-- The lexemes with which an expression can start. -/
def firsts : List Expectation :=
  .opening :: Keyword.atoms.map .keyword ++ [.tick, .number, .name]

/-- Can an expression start with this token? -/
def startsExpression (token : Token) : Bool :=
  firsts.any (·.isMetBy token)

/-- Reads a name in binding position. -/
def site : Reader Site := do
  let lexeme ← takeNext .name []
  return ⟨lexeme.span, lexeme.text⟩

/-- Reads a name or keyword as quoted text, where `others` could have come too. -/
def quoted (others : List Expectation) : Reader Lexeme :=
  take [.nameOrKeyword] others

/-- Reads a number of at most 64 bits. -/
def number (lexeme : Lexeme) : Reader Nat :=
  if lexeme.decimal < UInt64.size then return lexeme.decimal else refuse [.smallNumber]

/-- Reads one typed binder: a name and its type in brackets. -/
def binder (operand : Reader Expr) : Reader (Site × Expr) := do
  let _ ← takeNext .opening []
  let x ← site
  let ty ← operand
  let _ ← close []
  return (x, ty)

/-- Reads a bracketed list of at least one item. -/
def group {α : Type} (first : Expectation) (item : Reader α) : Reader (List α) := do
  let _ ← takeNext .opening []
  let head ← item
  let tail ← manyAvailable first.isMetBy item
  let _ ← close [first]
  return head :: tail

/-- Reads one expression or more, and the closing bracket after them. -/
def operands (operand : Reader Expr) : Reader (List Expr × Nat) := do
  let head ← operand
  let tail ← manyAvailable startsExpression operand
  let stop ← close firsts
  return (head :: tail, stop)

/-- Reads what follows the opening bracket of an expression that starts at `start`, up to its
closing bracket. The reader `expression` is used for all subexpressions and takes what else
could stand at their first lexeme; `others` is what else could follow the opening bracket. -/
def compound (expression : List Expectation → Reader Expr) (start : Nat)
    (others : List Expectation) :
    Reader Expr := do
  let operand : Reader Expr := do skipBlanks; expression [.blank]
  let skip : Reader Unit := modify List.tail
  let close : Reader Span := return ⟨start, ← close []⟩
  skipBlanks
  match ← peek with
  | some (.keyword (.unary o)) => do
    skip
    let a ← operand
    return .unary (← close) o a
  | some (.keyword (.binary o)) => do
    skip
    let a ← operand
    let b ← operand
    return .binary (← close) o a b
  | some (.keyword (.ternary o)) => do
    skip
    let a ← operand
    let b ← operand
    let c ← operand
    return .ternary (← close) o a b c
  | some (.keyword (.quaternary o)) => do
    skip
    let a ← operand
    let b ← operand
    let c ← operand
    let d ← operand
    return .quaternary (← close) o a b c d
  | some (.keyword .indVec) => do
    skip
    let length ← operand
    let target ← operand
    let motive ← operand
    let base ← operand
    let step ← operand
    return .indVec (← close) length target motive base step
  | some (.keyword .arrow) => do
    skip
    let domain ← operand
    let (rest, stop) ← operands operand
    return .arrow ⟨start, stop⟩ domain rest
  | some (.keyword (.quant q)) => do
    skip
    let binders ← group .opening (binder operand)
    let body ← operand
    return .quant (← close) q binders body
  | some (.keyword .lambda) => do
    skip
    let parameters ← group .name site
    let body ← operand
    return .lambda (← close) parameters body
  | some (.keyword .quote) => do
    skip
    skipBlanks
    let atom ← quoted [.blank]
    return .quote (← close) atom.text
  | _ => do
    let function ← expression (.blank :: Keyword.compounds.map .keyword ++ others)
    let (arguments, stop) ← operands operand
    return .apply ⟨start, stop⟩ function arguments

/-- Reads one expression, with brackets nested less deeply than the bound. The list says what
else could stand at its first lexeme. -/
def expression : Nat → List Expectation → Reader Expr
  | 0, others => refuse (others ++ firsts)
  | depth + 1, others => do
    let lexeme ← take firsts others
    match lexeme.token with
    | .opening => compound (expression depth) lexeme.start []
    | .keyword (.const c) => return .const lexeme.span c
    | .keyword .todo => return .todo lexeme.span
    | .tick => do
      let atom ← quoted []
      return .quote ⟨lexeme.start, atom.stop⟩ atom.text
    | .number => return .number lexeme.span (← number lexeme)
    | .name => return .var lexeme.span lexeme.text
    | _ => refuse (others ++ firsts)

/-- Reads what follows the opening bracket of a top-level form that starts at `start`, up to its
closing bracket. -/
def bracketedForm (depth start : Nat) : Reader Form := do
  let operand : Reader Expr := do skipBlanks; expression depth [.blank]
  skipBlanks
  match ← peek with
  | some (.keyword (.opener .claim)) => do
    modify List.tail
    let x ← site
    let ty ← operand
    let _ ← close []
    return .claim x ty
  | some (.keyword (.opener .define)) => do
    modify List.tail
    let x ← site
    let term ← operand
    let _ ← close []
    return .define x term
  | some (.keyword (.opener .checkSame)) => do
    modify List.tail
    let ty ← operand
    let left ← operand
    let right ← operand
    let _ ← close []
    return .checkSame ty left right
  | _ => return .expression (← compound (expression depth) start (Keyword.openers.map .keyword))

/-- Reads one top-level form. -/
def form (depth : Nat) : Reader Form := do
  match ← get with
  | ⟨.opening, start, _⟩ :: rest => do
    set rest
    bracketedForm depth start
  | _ => return .expression (← expression depth [.blank, .endOfText])

/-- Reads forms up to the end of the text. -/
def program (depth : Nat) : Nat → Reader (List Form)
  | 0 => return []
  | bound + 1 => do
    skipBlanks
    match ← peek with
    | none => return []
    | some _ => return (← form depth) :: (← program depth bound)

/-- Reads one expression and nothing after it. -/
def loneExpression (depth : Nat) : Reader Expr := do
  skipBlanks
  let e ← expression depth [.blank]
  skipBlanks
  match ← peek with
  | none => return e
  | some _ => refuse [.blank, .endOfText]

end Reader

/-- Runs a reader on all lexemes of a text of the given size. -/
def readAll {α : Type} (reader : Reader α) (size : Nat) (lexemes : List Lexeme) :
    Except ParseError α :=
  match reader lexemes with
  | .ok (a, _) => .ok a
  | .error refusal =>
    let span := match refusal.rest with
      | [] => ⟨size, size⟩
      | lexeme :: _ => lexeme.span
    .error ⟨span, refusal.expected⟩

/-- Reads the top-level forms of a text. -/
def parseLexemes (size : Nat) (lexemes : List Lexeme) : Except ParseError (List Form) :=
  readAll (Reader.program (lexemes.length + 1) (lexemes.length + 1)) size lexemes

/-- Reads the lexemes of a text as one expression. -/
def parseLexemesAsExpression (size : Nat) (lexemes : List Lexeme) : Except ParseError Expr :=
  readAll (Reader.loneExpression (lexemes.length + 1)) size lexemes

/-- Reads a program. -/
def parse (source : String) : Except ReadError (List Form) := do
  let lexemes ← (lex source).mapError .lex
  (parseLexemes source.utf8ByteSize lexemes).mapError .parse

theorem parse_of_lex {source : String} {ts : List Lexeme} {forms : List Form}
    (hlex : lex source = .ok ts) (h : parseLexemes source.utf8ByteSize ts = .ok forms) :
    parse source = .ok forms := by
  rw [parse, hlex]
  show (parseLexemes source.utf8ByteSize ts).mapError ReadError.parse = .ok forms
  rw [h]
  rfl

/-- Reads a text that is one expression. -/
def parseExpression (source : String) : Except ReadError Expr := do
  let lexemes ← (lex source).mapError .lex
  (parseLexemesAsExpression source.utf8ByteSize lexemes).mapError .parse

end Surface

end PieChecker
