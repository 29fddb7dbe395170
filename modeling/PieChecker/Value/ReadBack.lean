import PieChecker.Name.Fresh
import PieChecker.Value.Evaluation

set_option autoImplicit false

/-!
# Reading values back

Read-back turns a value into a core term in normal form, directed by the type of the value:
every function becomes a `λ`, every pair a `cons`, every value of type `Trivial` is `sole`. A
neutral value becomes the elimination that it stands for. Binders get names that are not in use;
of the context, read-back needs no more than those names.
-/

namespace PieChecker

namespace Neutral

/-- The operator that an eliminator without further operands reads back to. -/
def Projection.operator : Projection → PieChecker.Unary
  | car => .car
  | cdr => .cdr
  | symm => .symm
  | head => .head
  | tail => .tail

/-- The operator that an eliminator at a fixed type reads back to. -/
def Recursor.operator : Recursor → Core.Quaternary
  | whichNat => .whichNat
  | iterNat => .iterNat
  | recNat => .recNat
  | recList => .recList

/-- The operator that an eliminator of equalities reads back to. -/
def Transport.operator : Transport → Core.Ternary
  | replace => .replace
  | indEq => .indEq

/-- The operator that an eliminator with a motive and two methods reads back to. -/
def Inductor.operator : Inductor → Core.Quaternary
  | indNat => .indNat
  | indList => .indList
  | indEither => .indEither

end Neutral

/-- The name that a function suggests for its parameter, and the given one for a value that is
no `λ`. -/
def Value.parameterName (default : String) : Value → String
  | .lam x _ => x
  | _ => default

mutual

/-- Reads a value back at its type. The list holds the names in use. -/
def Value.readBack (strategy : Strategy) : (fuel : Nat) → List String → (ty value : Value) →
    Outcome Core
  | 0, _, _, _ => Outcome.exhausted
  | fuel + 1, names, ty, value => do
    let read := Value.readBack strategy fuel names
    let ty ← ty.now
    let value ← value.now
    match ty, value with
    | .univ, value => Value.readBackType strategy fuel names value
    | .nat, .zero => return .zero
    | .nat, .add1 previous => return .add1 (← read .nat previous)
    | .pi x base family, value => do
      let y ← Name.freshen names (value.parameterName x)
      let result ← Closure.run strategy fuel family (.var y base)
      let body ← Value.apply strategy fuel value (.var y base)
      return .lam y (← Value.readBack strategy fuel (y :: names) result body)
    | .sigma _ base family, value => do
      let a ← value.car
      let result ← Closure.run strategy fuel family a
      let d ← read result (← value.cdr ⟨Value.apply strategy fuel, Closure.run strategy fuel⟩)
      return .binary .cons (← read base a) d
    | .const .atom, .quote a => return .quote a
    | .const .trivial, _ => return .const .sole
    | .list _, .const .nil => return .const .nil
    | .list entry, .listCons head tail =>
      return .binary .listCons (← read entry head) (← read (.list entry) tail)
    | .const .absurd, .neutral _ stuck =>
      return .the .absurd (← Neutral.readBack strategy fuel names stuck)
    | .const .absurd, _ => Outcome.broken
    | .equal space _ _, .same point => return .unary .same (← read space point)
    | .vec _ _, .const .vecnil => return .const .vecnil
    | .vec entry length, .vecCons head tail => do
      match ← length.now with
      | .add1 previous =>
        return .binary .vecCons (← read entry head) (← read (.vec entry previous) tail)
      | _ => Outcome.broken
    | .either left _, .unary .left a => return .unary .left (← read left a)
    | .either _ right, .unary .right b => return .unary .right (← read right b)
    | _, .neutral _ stuck => Neutral.readBack strategy fuel names stuck
    | _, _ => Outcome.broken

/-- Reads a type back. The list holds the names in use. -/
def Value.readBackType (strategy : Strategy) : (fuel : Nat) → List String → (ty : Value) →
    Outcome Core
  | 0, _, _ => Outcome.exhausted
  | fuel + 1, names, ty => do
    let read := Value.readBack strategy fuel names
    let readType := Value.readBackType strategy fuel names
    match ← ty.now with
    | .univ => return .univ
    | .nat => return .nat
    | .const .atom => return .const .atom
    | .const .trivial => return .const .trivial
    | .const .absurd => return .absurd
    | .quant q x base family => do
      let y ← Name.freshen names x
      let baseTerm ← readType base
      let result ← Closure.run strategy fuel family (.var y base)
      return .quant q y baseTerm (← Value.readBackType strategy fuel (y :: names) result)
    | .list entry => return .unary .list (← readType entry)
    | .equal space lhs rhs =>
      return .ternary .equal (← readType space) (← read space lhs) (← read space rhs)
    | .vec entry length => return .binary .vec (← readType entry) (← read .nat length)
    | .either left right => return .binary .either (← readType left) (← readType right)
    | .neutral _ stuck => Neutral.readBack strategy fuel names stuck
    | _ => Outcome.broken

/-- Reads a stuck elimination back. The list holds the names in use. -/
def Neutral.readBack (strategy : Strategy) : (fuel : Nat) → List String → Neutral → Outcome Core
  | 0, _, _ => Outcome.exhausted
  | fuel + 1, names, stuck =>
    let spine := Neutral.readBack strategy fuel names
    let readType := Value.readBackType strategy fuel names
    let normal : Normal → Outcome Core
      | ⟨ty, value⟩ => Value.readBack strategy fuel names ty value
    match stuck with
    | .var x => return .var x
    | .todo span ty => return .todo span (← readType ty)
    | .project o target => return .unary o.operator (← spine target)
    | .apply function argument => return .apply (← spine function) (← normal argument)
    | .recursor o target ⟨ty, base⟩ step =>
      return .quaternary o.operator (← spine target) (← readType ty) (← normal ⟨ty, base⟩)
        (← normal step)
    | .transport o target motive base =>
      return .ternary o.operator (← spine target) (← normal motive) (← normal base)
    | .induct o target motive first second =>
      return .quaternary o.operator (← spine target) (← normal motive) (← normal first)
        (← normal second)
    | .indAbsurd target motive =>
      return .binary .indAbsurd (.the .absurd (← spine target)) (← normal motive)
    | .cong target resultType function =>
      return .ternary .cong (← spine target) (← normal resultType) (← normal function)
    | .transLeft left right => return .binary .trans (← spine left) (← normal right)
    | .transRight left right => return .binary .trans (← normal left) (← spine right)
    | .transBoth left right => return .binary .trans (← spine left) (← spine right)
    | .indVecTarget length target motive base step =>
      return .indVec (← normal length) (← spine target) (← normal motive) (← normal base)
        (← normal step)
    | .indVecBoth length target motive base step =>
      return .indVec (← spine length) (← spine target) (← normal motive) (← normal base)
        (← normal step)

end

/-- A strategy of evaluation with the fuel that each evaluation and each read-back may use. -/
structure Engine where
  strategy : Strategy
  fuel : Nat
  deriving DecidableEq, Repr

namespace Engine

/-- Evaluation on demand, with fuel for recursions far deeper than any that fits a machine's
stack. -/
def standard : Engine := ⟨.onDemand, 1 <<< 60⟩

variable (E : Engine)

/-- Evaluates a term in an environment. -/
def evaluate (ρ : Environment) (term : Core) : Outcome Value :=
  term.evaluate E.strategy E.fuel ρ

/-- Applies a function to an argument. -/
def apply (function argument : Value) : Outcome Value :=
  function.apply E.strategy E.fuel argument

/-- Gives a closure its argument. -/
def run (closure : Closure) (argument : Value) : Outcome Value :=
  closure.run E.strategy E.fuel argument

/-- Reads a value back at its type, with the given names in use. -/
def readBack (names : List String) (ty value : Value) : Outcome Core :=
  ty.readBack E.strategy E.fuel names value

/-- Reads a type back, with the given names in use. -/
def readBackType (names : List String) (ty : Value) : Outcome Core :=
  ty.readBackType E.strategy E.fuel names

end Engine

end PieChecker
