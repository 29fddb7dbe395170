import PieChecker.Surface.Reader
import PieChecker.Typing.Rules

set_option autoImplicit false

/-!
# Sessions

A session processes top-level forms against a growing context. A form that is rejected leaves
the context as it was, and the forms of one program are processed up to the first one that is
not accepted.
-/

namespace PieChecker

/-- What an accepted form produced. -/
inductive Output where
  | claimed (x : String)
  | defined (x : String)
  /-- Two expressions were found to be the same. -/
  | same
  /-- The normal form of an expression, annotated with its type. -/
  | normalized (term : Core)
  deriving DecidableEq, Repr

/-- The text of an output. -/
def Output.render : Output → String
  | claimed x => "claimed " ++ x
  | defined x => "defined " ++ x
  | same => "same"
  | normalized term => term.print

/-- An unfinished part of a program and the type that it must have. -/
structure Hole where
  span : Span
  ty : Core
  deriving DecidableEq, Repr

/-- The unfinished parts of terms, in order. -/
def holesOf (terms : List Core) : List Hole :=
  terms.flatMap fun term => term.holes.map fun (span, ty) => ⟨span, ty⟩

/-- What an accepted form produced, with its unfinished parts. -/
structure Processed where
  output : Output
  holes : List Hole
  deriving DecidableEq, Repr

namespace Context

variable (E : Engine)

/-- Processes one form. The result holds the context after it. -/
def process (Γ : Context) : Surface.Form → Checked (Processed × Context)
  | .claim site ty => do
    if (Γ.binding? site.name).isSome then reject site.span (.alreadyDefined site.name)
    let ty ← Γ.isType E ty
    let value ← Γ.evaluate E ty
    return (⟨.claimed site.name, holesOf [ty]⟩, Γ.claim site.name value)
  | .define site term => do
    match Γ.binding? site.name with
    | some (.claim ty) =>
      let term ← Γ.check E term ty
      let value ← Γ.evaluate E term
      return (⟨.defined site.name, holesOf [term]⟩, Γ.define site.name ty value)
    | some _ => reject site.span (.alreadyDefined site.name)
    | none => reject site.span (.notClaimed site.name)
  | .checkSame ty left right => do
    let tyTerm ← Γ.isType E ty
    let value ← Γ.evaluate E tyTerm
    let leftTerm ← Γ.check E left value
    let rightTerm ← Γ.check E right value
    let leftValue ← Γ.evaluate E leftTerm
    let rightValue ← Γ.evaluate E rightTerm
    locate right.span (Γ.convert E value leftValue rightValue)
    return (⟨.same, holesOf [tyTerm, leftTerm, rightTerm]⟩, Γ)
  | .expression e => do
    let term ← Γ.normalize E e
    return (⟨.normalized term, holesOf [term]⟩, Γ)

end Context

/-- What became of the forms of a program: what the accepted ones produced, the context after
them, and what ended the run early, if anything did. -/
structure Transcript where
  processed : List Processed
  context : Context
  interrupt : Option (Interrupt TypeError)

namespace Context

variable (E : Engine)

/-- Processes forms up to the first one that is not accepted. -/
def processAll (Γ : Context) : List Surface.Form → Transcript
  | [] => ⟨[], Γ, none⟩
  | form :: forms =>
    match Γ.process E form with
    | .ok (processed, Γ') =>
      let rest := Γ'.processAll forms
      ⟨processed :: rest.processed, rest.context, rest.interrupt⟩
    | .error interrupt => ⟨[], Γ, some interrupt⟩

/-- Reads a program and processes its forms. -/
def runProgram (Γ : Context) (source : String) : Except ReadError Transcript := do
  return Γ.processAll E (← Surface.parse source)

end Context

end PieChecker
