import PieChecker.Token.Lexer
import PieChecker.Outcome
import PieChecker.Surface.Basic
import PieChecker.Surface.Reader
import PieChecker.Core.Alpha
import PieChecker.Core.Printer
import PieChecker.Name.Fresh
import PieChecker.Text.Bytes
import PieChecker.Text.Width
import PieChecker.Value.Basic
import PieChecker.Value.Elimination
import PieChecker.Value.Evaluation
import PieChecker.Value.ReadBack
import PieChecker.Context
import PieChecker.Typing.Conversion
import PieChecker.Typing.Rules
import PieChecker.Command
import PieChecker.Main
import PieChecker.Text.CharWidth
import PieChecker.Text.Emoji
import PieChecker.Text.Ligature
import PieChecker.Proofs.LexicalScope
import PieChecker.Proofs.ScopeSafety
import PieChecker.Proofs.Hygiene
import PieChecker.Proofs.CallByNeed
import PieChecker.Proofs.Parsing.Grammar
import PieChecker.Proofs.Parsing.Readers
import PieChecker.Proofs.Parsing.Expressions
import PieChecker.Proofs.Parsing.Programs
import PieChecker.Proofs.Canonicity.Code
import PieChecker.Proofs.Canonicity.Derivation
import PieChecker.Proofs.Canonicity.Representation
import PieChecker.Proofs.Canonicity.Adequacy
import PieChecker.Proofs.Canonicity.Elimination
import PieChecker.Proofs.Canonicity.Evaluation
import PieChecker.Proofs.Canonicity.Models
import PieChecker.Proofs.Canonicity.Checking
import PieChecker.Proofs.Canonicity.Elaboration
import PieChecker.Proofs.Canonicity.NormalForms
import PieChecker.Proofs.Canonicity
import PieChecker.Proofs.Lexing.Splitting
import PieChecker.Proofs.Lexing.Scanning
import PieChecker.Proofs.Printing.Phrases
import PieChecker.Proofs.Printing.Expansion
import PieChecker.Proofs.Printing.RoundTrip
import PieChecker.Proofs.SessionStates
import PieChecker.Proofs.Nameless
import PieChecker.Proofs.Bidirectional
import PieChecker.Proofs.HoleIdentity
import PieChecker.Proofs.Places
import PieChecker.Proofs.Relocation
import PieChecker.Proofs.Lexing.Seam
import PieChecker.Proofs.BatchRuns
import PieChecker.Proofs.Provenance
import PieChecker.Proofs.Parsing.Refusals
import PieChecker.Proofs.Reporting
import PieChecker.Proofs.Congruence
import PieChecker.Proofs.TypeReadings
import PieChecker.Proofs.GrownContexts
import PieChecker.Proofs.FreshNames
import PieChecker.Proofs.LongNormalForms
import PieChecker.Proofs.BoundNames
import PieChecker.Proofs.FreeNames
import PieChecker.Proofs.Weakening
import PieChecker.Proofs.MentionedNames
import PieChecker.Proofs.GroupedForms
import PieChecker.Proofs.ReportedHoles
import PieChecker.Proofs.Parsing.Patterns
import PieChecker.Proofs.Parsing.Continuations
import PieChecker.Proofs.Parsing.Explanations
import PieChecker.Proofs.Parsing.ParseErrors
import PieChecker.Proofs.ByteCuts
import PieChecker.Proofs.Lexing.Stretches
import PieChecker.Proofs.Parsing.Constituents
import PieChecker.Proofs.Parsing.Rereading
import PieChecker.Proofs.ReportHeadings
import PieChecker.Proofs.ReturningRuns
import PieChecker.Proofs.Recursors
import PieChecker.Proofs.LeastSubscripts
import PieChecker.Proofs.WrittenNames
import PieChecker.Proofs.BareParts
import PieChecker.Proofs.RunStops
