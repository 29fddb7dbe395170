import PieChecker.Session
import PieChecker.Text.Bytes
import PieChecker.Text.Width

set_option autoImplicit false

/-!
# Reports

A report shows a message under a heading with line and column, then the source line on which a
span starts, and carets under the part of the span that lies on that line. Positions are bytes;
columns count characters. A tab is shown as three spaces, and blanks at the end of the line are
left out. There is no report for a span that cuts a character.
-/

namespace PieChecker

namespace Report

/-- A line as it is shown: tabs are three spaces. -/
def expandTabs (cs : List Char) : List Char :=
  cs.flatMap fun c => if c = '\t' then [' ', ' ', ' '] else [c]

/-- The place of a span in its text: the number of the line on which it starts, and three parts
of that line, before, inside and after the span. -/
structure Place where
  lineNumber : Nat
  before : List Char
  inside : List Char
  after : List Char
  deriving DecidableEq, Repr

namespace Place

/-- The whole line. -/
def line (p : Place) : List Char := p.before ++ p.inside ++ p.after

/-- The column of the first character of the span, counted from one. -/
def column (p : Place) : Nat := p.before.length + 1

end Place

/-- Finds a span in a text. A start beyond the text counts as its end, and an end outside the
start's line is moved into the rest of that line. -/
def place? (source : List Char) (span : Span) : Option Place := do
  let start := min span.start (Text.byteSize source)
  let (text, rest) ← Text.cutAt? start source
  let before := (text.reverse.takeWhile (· ≠ '\n')).reverse
  let lineRest := rest.takeWhile (· ≠ '\n')
  let size := min (span.stop - start) (Text.byteSize lineRest)
  let (inside, after) ← Text.cutAt? size lineRest
  return ⟨text.count '\n' + 1, before, inside, after⟩

/-- A message about a place, for a terminal on which texts take the given widths. -/
def render (width : List Char → Nat) (p : Place) (message : String) : String :=
  let number := toString p.lineNumber
  let margin := "".pushn ' ' number.length
  let shown := String.ofList (Text.trimEnd (expandTabs p.line))
  let offset := width (expandTabs p.before)
  let carets := max 1 (width (expandTabs p.inside))
  "[" ++ number ++ ":" ++ toString p.column ++ "] error: " ++ message ++ "\n" ++
    margin ++ " |\n" ++
    number ++ " | " ++ shown ++ "\n" ++
    margin ++ " | " ++ "".pushn ' ' offset ++ "".pushn '^' carets ++ "\n"

/-- A message about a span of a text. -/
def about (width : List Char → Nat) (source : String) (span : Span) (message : String) :
    Outcome String :=
  match place? source.toList span with
  | some p => .ok (render width p message)
  | none => Outcome.broken

end Report

/-- A character inside backquotes: a quote and a backslash are written with a backslash before
them. -/
def escapeChar (c : Char) : String :=
  if c = '"' ∨ c = '\\' then String.ofList ['\\', c] else String.ofList [c]

namespace LexFault

/-- The wording of a lexical fault. -/
def message : LexFault → String
  | unrecognizedStart c => "unrecognized lexeme prefix `" ++ escapeChar c ++ "`"
  | malformedName word => "`" ++ word ++ "` is neither a name nor a number"
  | mismatchedBracket bracket =>
    "`" ++ String.singleton bracket.closingChar ++ "` does not close the innermost bracket"
  | unclosedBracket bracket =>
    "this bracket is never closed; expected `" ++ String.singleton bracket.closingChar ++ "`"

/-- The number of bytes that a fault underlines. -/
def size : LexFault → Nat
  | unrecognizedStart c => c.utf8Size
  | malformedName word => word.utf8ByteSize
  | mismatchedBracket _ | unclosedBracket _ => 1

end LexFault

/-- The report of a lexical error. -/
def LexError.report (source : String) (e : LexError) : Outcome String :=
  Report.about Text.width source ⟨e.position, e.position + e.fault.size⟩
    ("lex error: " ++ e.fault.message)

/-- The report of a parse error. -/
def ParseError.report (source : String) (e : ParseError) : Outcome String :=
  Report.about Text.width source e.span ("parse error: " ++ e.message)

/-- The report of a text that was not read. -/
def ReadError.report (source : String) : ReadError → Outcome String
  | lex e => e.report source
  | parse e => e.report source

/-- The report of a rejection. -/
def TypeError.report (source : String) (e : TypeError) : Outcome String :=
  Report.about Text.width source e.span ("elaboration error: " ++ e.cause.message)

/-- The report of an unfinished part. -/
def Hole.report (source : String) (hole : Hole) : Outcome String :=
  Report.about Text.width source hole.span ("unfinished: TODO has type " ++ hole.ty.print)

end PieChecker
