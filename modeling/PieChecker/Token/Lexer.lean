import PieChecker.Text.Blank
import PieChecker.Token.Basic

set_option autoImplicit false

/-!
# Lexemes of a text

A text splits from the left into pieces, each as long as it can be: a run of blanks, a comment
up to and including its newline, a bracket, a tick, or a word. Every piece is then classified,
and the brackets are matched with a stack of the ones still open. The first piece that is no
lexeme, or closes nothing, is the error; a bracket that is never closed is reported only when
the whole text has been read.
-/

namespace PieChecker

/-- The two kinds of brackets. They may not be mixed. -/
inductive Bracket where
  | round | square
  deriving DecidableEq, Repr

namespace Bracket

def openingChar : Bracket → Char
  | round => '('
  | square => '['

def closingChar : Bracket → Char
  | round => ')'
  | square => ']'

end Bracket

/-- What is wrong with a text that does not split into lexemes. -/
inductive LexFault where
  /-- A word that is no name and starts with a reserved character. -/
  | unrecognizedStart (c : Char)
  /-- Any other word that is neither a name nor a number. -/
  | malformedName (word : String)
  /-- A closing bracket that does not match the innermost open one. -/
  | mismatchedBracket (bracket : Bracket)
  /-- The text ends while a bracket of this kind is open. -/
  | unclosedBracket (bracket : Bracket)
  deriving DecidableEq, Repr

/-- A fault and the position of the piece that has it. -/
structure LexError where
  position : Nat
  fault : LexFault
  deriving DecidableEq, Repr

/-- The one-line description of a lexical error. -/
def LexError.message (e : LexError) : String :=
  "unexpected input at byte " ++ toString e.position

namespace Lexer

/-- The characters that end a word. -/
def isDelimiter (c : Char) : Bool :=
  Text.isBlank c || c = '(' || c = ')' || c = '[' || c = ']' || c = '\'' || c = ';'

/-- The characters that no word may contain. -/
def isReserved (c : Char) : Bool :=
  c = '#' || c = '"' || c = ',' || c = '\x60' || c = '|' || c = '\\' || c = '\x7b' || c = '\x7d'

/-- Is the character one of the ten decimal digits? -/
def isDigit (c : Char) : Bool := '0' ≤ c && c ≤ '9'

/-- A word that can be a name: no digit at its start, and no reserved character in it. -/
def isName (cs : List Char) : Bool :=
  !(cs.head?.any isDigit) && !cs.any isReserved

/-- The class of a word. -/
def wordToken? (cs : List Char) : Option Token :=
  match Keyword.ofSpelling? (String.ofList cs) with
  | some k => some (.keyword k)
  | none => if cs.all isDigit then some .number else if isName cs then some .name else none

/-- Splits a text after its first newline, or after its last character if it has none. -/
def splitLine : List Char → List Char × List Char
  | [] => ([], [])
  | c :: cs =>
    if c = '\n' then ([c], cs) else let (line, rest) := splitLine cs; (c :: line, rest)

/-- What follows the first character of a piece: the rest of the piece, and the text after
it. -/
def splitPiece (c : Char) (cs : List Char) : List Char × List Char :=
  if Text.isBlank c then (cs.takeWhile Text.isBlank, cs.dropWhile Text.isBlank)
  else if c = ';' then splitLine cs
  else if isDelimiter c then ([], cs)
  else (cs.takeWhile (!isDelimiter ·), cs.dropWhile (!isDelimiter ·))

theorem splitLine_append (cs : List Char) : (splitLine cs).1 ++ (splitLine cs).2 = cs := by
  induction cs with
  | nil => rfl
  | cons c cs ih => by_cases h : c = '\n' <;> simp [splitLine, h, ih]

/-- A piece and the text after it make up the text. -/
theorem splitPiece_append (c : Char) (cs : List Char) :
    (splitPiece c cs).1 ++ (splitPiece c cs).2 = cs := by
  unfold splitPiece
  split
  · simp
  split
  · exact splitLine_append cs
  split <;> simp

/-- The text after a piece is no longer than the text after the first character of the piece. -/
theorem length_splitPiece_snd_le (c : Char) (cs : List Char) :
    (splitPiece c cs).2.length ≤ cs.length := by
  have h := congrArg List.length (splitPiece_append c cs)
  rw [List.length_append] at h
  omega

/-- The pieces of a text, each as long as it can be. -/
def pieces : List Char → List (List Char)
  | [] => []
  | c :: cs => (c :: (splitPiece c cs).1) :: pieces (splitPiece c cs).2
termination_by cs => cs.length
decreasing_by
  have := length_splitPiece_snd_le c cs
  simp only [List.length_cons]
  omega

/-- The pieces of a text make up the text. -/
theorem flatten_pieces (cs : List Char) : (pieces cs).flatten = cs := by
  fun_induction pieces cs with
  | case1 => rfl
  | case2 c cs ih => rw [List.flatten_cons, ih, List.cons_append, splitPiece_append]

/-- What a piece is: a bracket, or a lexeme that needs no partner. -/
inductive Piece where
  | opening (bracket : Bracket)
  | closing (bracket : Bracket)
  | plain (token : Token)
  | bad (fault : LexFault)
  deriving DecidableEq, Repr

/-- The class of a piece. -/
def classify (cs : List Char) : Piece :=
  match cs with
  | [] => .plain .blank
  | c :: _ =>
    if Text.isBlank c || c = ';' then .plain .blank
    else if c = '(' then .opening .round
    else if c = '[' then .opening .square
    else if c = ')' then .closing .round
    else if c = ']' then .closing .square
    else if c = '\'' then .plain .tick
    else match wordToken? cs with
      | some token => .plain token
      | none =>
        .bad (if isReserved c then .unrecognizedStart c else .malformedName (String.ofList cs))

/-- Classifies pieces that start at `position`, with the given brackets open, the innermost one
first. -/
def scan (position : Nat) (brackets : List (Bracket × Nat)) :
    List (List Char) → Except LexError (List Lexeme)
  | [] =>
    match brackets with
    | [] => .ok []
    | (bracket, start) :: _ => .error ⟨start, .unclosedBracket bracket⟩
  | cs :: rest =>
    let text := String.ofList cs
    let next := position + text.utf8ByteSize
    match classify cs with
    | .plain token => do return ⟨token, position, text⟩ :: (← scan next brackets rest)
    | .opening bracket =>
      do return ⟨.opening, position, text⟩ ::
        (← scan next ((bracket, position) :: brackets) rest)
    | .closing bracket =>
      match brackets with
      | (innermost, _) :: outer =>
        if innermost = bracket then do return ⟨.closing, position, text⟩ ::
          (← scan next outer rest)
        else .error ⟨position, .mismatchedBracket bracket⟩
      | [] => .error ⟨position, .mismatchedBracket bracket⟩
    | .bad fault => .error ⟨position, fault⟩

end Lexer

/-- Splits a source text into lexemes. -/
def lex (source : String) : Except LexError (List Lexeme) :=
  Lexer.scan 0 [] (Lexer.pieces source.toList)

end PieChecker
