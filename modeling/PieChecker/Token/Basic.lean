import PieChecker.Operator
import PieChecker.Surface.Operator
import PieChecker.Text.Span

set_option autoImplicit false

/-!
# Tokens

A source text is a sequence of lexemes. Each lexeme is a piece of the text together with its
class, a `Token`. The keywords are a closed vocabulary, sorted by the role that they play in the
grammar.
-/

namespace PieChecker

/-- The keywords that open a top-level form. -/
inductive Opener where
  | claim | define | checkSame
  deriving DecidableEq, Repr

/-- The keywords, by the role that they play in the grammar. -/
inductive Keyword where
  | opener (o : Opener)
  | const (c : Const)
  | todo
  | unary (o : Unary)
  | binary (o : Surface.Binary)
  | ternary (o : Surface.Ternary)
  | quaternary (o : Surface.Quaternary)
  | indVec
  | arrow
  | quant (q : Quantifier)
  | lambda
  | quote
  deriving DecidableEq, Repr

namespace Keyword

/-- The texts that are read as a keyword, the plainest one first. -/
def spellings : Keyword → List String
  | opener .claim => ["claim"]
  | opener .define => ["define"]
  | opener .checkSame => ["check-same"]
  | const c => [c.spelling]
  | todo => ["TODO"]
  | unary o => [o.spelling]
  | binary o => [o.spelling]
  | ternary o => [o.spelling]
  | quaternary o => [o.spelling]
  | indVec => ["ind-Vec"]
  | arrow => ["->", "→"]
  | quant .pi => ["Pi", "Π", "∏"]
  | quant .sigma => ["Sigma", "Σ"]
  | lambda => ["lambda", "λ"]
  | quote => ["quote"]

/-- The keywords that may follow an opening bracket in an expression. -/
def compounds : List Keyword :=
  [binary .the, unary .add1, ternary .whichNat, ternary .iterNat, ternary .recNat,
    quaternary .indNat, arrow, quant .pi, lambda, quote, quant .sigma, binary .pair,
    binary .cons, unary .car, unary .cdr, unary .list, binary .listCons, ternary .recList,
    quaternary .indList, binary .indAbsurd, ternary .equal, unary .same, ternary .replace,
    binary .trans, binary .cong, unary .symm, ternary .indEq, binary .vec, binary .vecCons,
    unary .head, unary .tail, indVec, binary .either, unary .left, unary .right,
    quaternary .indEither]

/-- The keywords that are expressions by themselves. -/
def atoms : List Keyword :=
  [const .univ, todo, const .nat, const .zero, const .atom, const .trivial, const .sole,
    const .nil, const .absurd, const .vecnil]

/-- The keywords that open a top-level form. -/
def openers : List Keyword :=
  [opener .claim, opener .define, opener .checkSame]

/-- All keywords. -/
def all : List Keyword := openers ++ atoms ++ compounds

/-- The keyword that a text spells. -/
def ofSpelling? (text : String) : Option Keyword :=
  all.find? fun k => k.spellings.contains text

/-- The name of a keyword in messages about what was expected. -/
def describe : Keyword → String
  | opener .claim => "Claim"
  | opener .define => "Define"
  | opener .checkSame => "CheckSame"
  | const .univ => "U"
  | const .nat => "Nat"
  | const .zero => "Zero"
  | const .atom => "Atom"
  | const .trivial => "Trivial"
  | const .sole => "Sole"
  | const .nil => "Nil"
  | const .absurd => "Absurd"
  | const .vecnil => "VecNil"
  | todo => "Todo"
  | unary .add1 => "Add1"
  | unary .car => "Car"
  | unary .cdr => "Cdr"
  | unary .list => "List"
  | unary .same => "Same"
  | unary .symm => "Symm"
  | unary .head => "Head"
  | unary .tail => "Tail"
  | unary .left => "Left"
  | unary .right => "Right"
  | binary .the => "The"
  | binary .pair => "Pair"
  | binary .cons => "Cons"
  | binary .listCons => "ListCons"
  | binary .indAbsurd => "IndAbsurd"
  | binary .trans => "Trans"
  | binary .cong => "Cong"
  | binary .vec => "Vec"
  | binary .vecCons => "VecCons"
  | binary .either => "Either"
  | ternary .whichNat => "WhichNat"
  | ternary .iterNat => "IterNat"
  | ternary .recNat => "RecNat"
  | ternary .recList => "RecList"
  | ternary .equal => "Equal"
  | ternary .replace => "Replace"
  | ternary .indEq => "IndEq"
  | quaternary .indNat => "IndNat"
  | quaternary .indList => "IndList"
  | quaternary .indEither => "IndEither"
  | indVec => "IndVec"
  | arrow => "Arrow"
  | quant .pi => "Pi"
  | quant .sigma => "Sigma"
  | lambda => "Lambda"
  | quote => "Quote"

end Keyword

/-- The class of a lexeme. Square brackets have the same classes as round ones. -/
inductive Token where
  /-- A run of blanks, or a comment. -/
  | blank
  | keyword (k : Keyword)
  | name
  | number
  | opening
  | closing
  | tick
  deriving DecidableEq, Repr

/-- A piece of a source text with its class and the position at which it starts. -/
structure Lexeme where
  token : Token
  start : Nat
  text : String
  deriving DecidableEq, Repr

namespace Lexeme

/-- The position after the last byte of the lexeme. -/
def stop (l : Lexeme) : Nat := l.start + l.text.utf8ByteSize

/-- The bytes that the lexeme covers. -/
def span (l : Lexeme) : Span := ⟨l.start, l.stop⟩

/-- The number that the lexeme spells in decimal digits. -/
def decimal (l : Lexeme) : Nat :=
  l.text.toList.foldl (fun n c => 10 * n + (c.toNat - '0'.toNat)) 0

end Lexeme

end PieChecker
