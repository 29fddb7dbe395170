import PieChecker.Typing.Cause
import PieChecker.Value.ReadBack

set_option autoImplicit false

/-!
# Contexts

A context lists the names in use, the newest first. A claimed name has a type but is not in
scope until it is defined. The environment in which terms of a context are evaluated is kept
beside the bindings and grows with them, so that it is never computed again.
-/

namespace PieChecker

/-- What a name in a context stands for. -/
inductive Binding where
  /-- Claimed, and waiting for its definition. -/
  | claim (ty : Value)
  /-- Bound by an enclosing binder. -/
  | free (ty : Value)
  | defined (ty value : Value)

namespace Binding

/-- The type of a bound name. -/
def ty : Binding → Value
  | claim ty | free ty | defined ty _ => ty

/-- Is the name only claimed? -/
def isClaim : Binding → Bool
  | claim _ => true
  | free _ | defined _ _ => false

end Binding

/-- The names in use with what they stand for, the newest first. -/
structure Context where
  bindings : List (String × Binding)
  /-- The values of the names in scope, the newest first. -/
  environment : Environment

namespace Context

/-- The context without names. -/
def empty : Context := ⟨[], []⟩

/-- The names in use. -/
def names (Γ : Context) : List String := Γ.bindings.map Prod.fst

/-- Claims a name at a type. -/
def claim (Γ : Context) (x : String) (ty : Value) : Context :=
  ⟨(x, .claim ty) :: Γ.bindings, Γ.environment⟩

/-- Defines a name. Definitions may shadow. -/
def define (Γ : Context) (x : String) (ty value : Value) : Context :=
  ⟨(x, .defined ty value) :: Γ.bindings, (x, value) :: Γ.environment⟩

/-- Binds a name without a value, which the caller knows to be new. -/
def extendFree (Γ : Context) (x : String) (ty : Value) : Context :=
  ⟨(x, .free ty) :: Γ.bindings, (x, .var x ty) :: Γ.environment⟩

/-- Binds a name without a value. The name must not be in use. -/
def bindFree (Γ : Context) (x : String) (ty : Value) : Except Cause Context :=
  if x ∈ Γ.names then .error (.duplicateBinding x) else .ok (Γ.extendFree x ty)

/-- The newest binding of a name. -/
def binding? (Γ : Context) (x : String) : Option Binding := Γ.bindings.lookup x

/-- The type of a name in scope. -/
def lookupType (Γ : Context) (x : String) : Except Cause Value :=
  match Γ.bindings.find? fun (y, binding) => y = x && !binding.isClaim with
  | some (_, binding) => .ok binding.ty
  | none => .error (.unboundVariable x)

/-- A name that is not in use. -/
def fresh (Γ : Context) (suggestion : String) : Outcome String :=
  Name.freshen Γ.names suggestion

variable (E : Engine) (Γ : Context)

/-- Evaluates a term in scope. -/
def evaluate (term : Core) : Outcome Value := E.evaluate Γ.environment term

/-- Reads a value back at its type. -/
def readBack (ty value : Value) : Outcome Core := E.readBack Γ.names ty value

/-- Reads a type back. -/
def readBackType (ty : Value) : Outcome Core := E.readBackType Γ.names ty

/-- Evaluates a term of the given type and reads both back, as an annotated term in normal
form. -/
def normalForm (term : Core) (ty : Value) : Outcome Core := do
  let value ← Γ.evaluate E term
  return .the (← Γ.readBackType E ty) (← Γ.readBack E ty value)

end Context

end PieChecker
