import PieChecker.Surface.Basic
import PieChecker.Typing.Conversion

set_option autoImplicit false

/-!
# Scopes

While an expression is elaborated, each binder that the program writes is renamed to a name that
is not in use, and the renaming is remembered so that references find their binder. A renamed
binder cannot be referred to by its new name, and neither can the binders that elaboration
itself introduces.
-/

namespace PieChecker

/-- A result of checking: a value, a located rejection, or a stop. -/
abbrev Checked := Except (Interrupt TypeError)

/-- Rejects the text at a span. -/
def reject {α : Type} (span : Span) (cause : Cause) : Checked α :=
  .error (.rejected ⟨span, cause⟩)

/-- Locates the rejections of a computation at a span. -/
def locate {α : Type} (span : Span) (result : Except (Interrupt Cause) α) : Checked α :=
  result.mapError (Interrupt.map (TypeError.mk span))

/-- Locates the errors of a computation that cannot stop. -/
def locateError {α : Type} (span : Span) (result : Except Cause α) : Checked α :=
  result.mapError fun cause => .rejected ⟨span, cause⟩

/-- A context with the names that the binders of the program were given, the innermost binder
first. -/
structure Scope where
  context : Context
  renamed : List (String × String)

namespace Scope

/-- The scope of a whole expression. -/
def ofContext (Γ : Context) : Scope := ⟨Γ, []⟩

/-- Binds a name that the program writes. The result is the name that the binder is given. -/
def bind (S : Scope) (site : Surface.Site) (ty : Value) : Checked (String × Scope) := do
  let x ← S.context.fresh site.name
  let context ← locateError site.span (S.context.bindFree x ty)
  return (x, ⟨context, (site.name, x) :: S.renamed⟩)

/-- Binds a name that no name of the program refers to. -/
def bindHidden (S : Scope) (x : String) (ty : Value) (span : Span) : Checked Scope := do
  let context ← locateError span (S.context.bindFree x ty)
  return ⟨context, S.renamed⟩

/-- A name for a binder that elaboration introduces around expressions in which the given names
occur. -/
def freshBinder (S : Scope) (occurring : List String) (suggestion : String) : Outcome String :=
  Name.freshen (S.context.names ++ occurring) suggestion

/-- The name that a name of the program was given. -/
def resolve (S : Scope) (x : String) : Except Cause String :=
  match S.renamed.lookup x with
  | some y => .ok y
  | none => if x ∈ S.renamed.map Prod.snd then .error (.unboundVariable x) else .ok x

/-- What a name of the program refers to, with its type. -/
def reference (S : Scope) (x : String) : Except Cause (String × Value) := do
  let y ← S.resolve x
  return (y, ← S.context.lookupType y)

/-- Rejects a type that does not have the required former. -/
def rejectFormer {α : Type} (E : Engine) (S : Scope) (span : Span) (former : Former)
    (found : Value) : Checked α := do
  reject span (.expectedFormer former (← S.context.readBackType E found))

/-- Rejects a length that does not have the required shape. -/
def rejectLength {α : Type} (E : Engine) (S : Scope) (span : Span) (shape : LengthShape)
    (length : Value) :
    Checked α := do
  reject span (.vecLengthMismatch shape (← S.context.readBack E .nat length))

end Scope

end PieChecker
