import PieChecker.Value.Basic

set_option autoImplicit false

/-!
# Eliminating values

What each eliminator does to a value: it computes on a constructor, and on a neutral value it
becomes stuck, recording its operands with the types that read-back will need. A value of any
other shape breaks the evaluation.

The eliminators are written over the two ways of applying things, `Application`, which
evaluation ties to itself. The recursive ones take fuel for the length of their target.
-/

namespace PieChecker

/-- How functions and closures are applied to arguments. -/
structure Application where
  /-- Applies a function. -/
  apply : Value → Value → Outcome Value
  /-- Gives a closure its argument. -/
  run : Closure → Value → Outcome Value

namespace Value

/-! ## The types of motives, steps and methods -/

/-- The type of a motive over a type. -/
def motiveType (base : Value) : Value := arrow "x" base univ

def whichNatStepType (result : Value) : Value := arrow "n" nat result

def iterNatStepType (result : Value) : Value := arrow "ih" result result

def recNatStepType (result : Value) : Value := arrow "n-1" nat (arrow "ih" result result)

def indNatStepType (motive : Value) : Value := pi "n-1" nat (.indNatStep motive)

def recListStepType (entry result : Value) : Value :=
  arrow "e" entry (arrow "es" (list entry) (arrow "ih" result result))

def indListStepType (entry motive : Value) : Value := pi "e" entry (.indListStep entry motive)

/-- The type of a motive of `ind-=` for equalities whose left side is given. -/
def indEqMotiveType (ty lhs : Value) : Value := pi "to" ty (.indEqMotive ty lhs)

def indVecMotiveType (entry : Value) : Value := pi "k" nat (.indVecMotive entry)

def indVecStepType (entry motive : Value) : Value := pi "k" nat (.indVecStep entry motive)

def indEitherMethodType (side : Side) (ty motive : Value) : Value :=
  pi "x" ty (.indEitherMethod side motive)

/-- The injection into one side of a sum. -/
def inject : Side → Value → Value
  | .left, v => unary .left v
  | .right, v => unary .right v

variable (ap : Application)

/-! ## Natural numbers -/

def whichNat (target result base step : Value) : Outcome Value := do
  match ← target.now with
  | zero => return base
  | add1 previous => ap.apply step previous
  | neutral _ stuck =>
    return neutral result (.recursor .whichNat stuck ⟨result, base⟩
      ⟨whichNatStepType result, step⟩)
  | _ => Outcome.broken

def iterNat (result base step : Value) : (fuel : Nat) → (target : Value) → Outcome Value
  | 0, _ => Outcome.exhausted
  | fuel + 1, target => do
    match ← target.now with
    | zero => return base
    | add1 previous => ap.apply step (← iterNat result base step fuel previous)
    | neutral _ stuck =>
      return neutral result (.recursor .iterNat stuck ⟨result, base⟩
        ⟨iterNatStepType result, step⟩)
    | _ => Outcome.broken

def recNat (result base step : Value) : (fuel : Nat) → (target : Value) → Outcome Value
  | 0, _ => Outcome.exhausted
  | fuel + 1, target => do
    match ← target.now with
    | zero => return base
    | add1 previous =>
      let recursion ← recNat result base step fuel previous
      ap.apply (← ap.apply step previous) recursion
    | neutral _ stuck =>
      return neutral result (.recursor .recNat stuck ⟨result, base⟩
        ⟨recNatStepType result, step⟩)
    | _ => Outcome.broken

def indNat (motive base step : Value) : (fuel : Nat) → (target : Value) → Outcome Value
  | 0, _ => Outcome.exhausted
  | fuel + 1, target => do
    match ← target.now with
    | zero => return base
    | add1 previous =>
      let recursion ← indNat motive base step fuel previous
      ap.apply (← ap.apply step previous) recursion
    | neutral _ stuck =>
      let ty ← ap.apply motive target
      let baseType ← ap.apply motive zero
      return neutral ty
        (.induct .indNat stuck ⟨motiveType nat, motive⟩ ⟨baseType, base⟩
          ⟨indNatStepType motive, step⟩)
    | _ => Outcome.broken

/-! ## Pairs -/

def car (pair : Value) : Outcome Value := do
  match ← pair.now with
  | cons a _ => return a
  | neutral ty stuck =>
    match ← ty.now with
    | sigma _ base _ => return neutral base (.project .car stuck)
    | _ => Outcome.broken
  | _ => Outcome.broken

def cdr (pair : Value) : Outcome Value := do
  match ← pair.now with
  | cons _ d => return d
  | neutral ty stuck =>
    match ← ty.now with
    | sigma _ _ family => return neutral (← ap.run family (← pair.car)) (.project .cdr stuck)
    | _ => Outcome.broken
  | _ => Outcome.broken

/-! ## Lists -/

def recList (result base step : Value) : (fuel : Nat) → (target : Value) → Outcome Value
  | 0, _ => Outcome.exhausted
  | fuel + 1, target => do
    match ← target.now with
    | const .nil => return base
    | listCons head tail =>
      let recursion ← recList result base step fuel tail
      ap.apply (← ap.apply (← ap.apply step head) tail) recursion
    | neutral ty stuck =>
      match ← ty.now with
      | list entry =>
        return neutral result (.recursor .recList stuck ⟨result, base⟩
          ⟨recListStepType entry result, step⟩)
      | _ => Outcome.broken
    | _ => Outcome.broken

def indList (motive base step : Value) : (fuel : Nat) → (target : Value) → Outcome Value
  | 0, _ => Outcome.exhausted
  | fuel + 1, target => do
    match ← target.now with
    | const .nil => return base
    | listCons head tail =>
      let recursion ← indList motive base step fuel tail
      ap.apply (← ap.apply (← ap.apply step head) tail) recursion
    | neutral ty stuck =>
      match ← ty.now with
      | list entry =>
        let result ← ap.apply motive target
        let baseType ← ap.apply motive (const .nil)
        return neutral result (.induct .indList stuck ⟨motiveType (list entry), motive⟩
          ⟨baseType, base⟩ ⟨indListStepType entry motive, step⟩)
      | _ => Outcome.broken
    | _ => Outcome.broken

/-! ## The empty type -/

def indAbsurd (target motive : Value) : Outcome Value := do
  match ← target.now with
  | neutral _ stuck => return neutral motive (.indAbsurd stuck ⟨univ, motive⟩)
  | _ => Outcome.broken

/-! ## Equality -/

def replace (target motive base : Value) : Outcome Value := do
  match ← target.now with
  | same _ => return base
  | neutral ty stuck =>
    match ← ty.now with
    | equal space lhs rhs =>
      let result ← ap.apply motive rhs
      let baseType ← ap.apply motive lhs
      return neutral result (.transport .replace stuck ⟨motiveType space, motive⟩
        ⟨baseType, base⟩)
    | _ => Outcome.broken
  | _ => Outcome.broken

/-- A reflexive equality with its type. -/
def reflexive (space point : Value) : Normal := ⟨equal space point point, same point⟩

def trans (left right : Value) : Outcome Value := do
  let left ← left.now
  let right ← right.now
  match left, right with
  | same point, same _ => return same point
  | same lhs, neutral ty stuck =>
    match ← ty.now with
    | equal space _ rhs =>
      return neutral (equal space lhs rhs) (.transRight (reflexive space lhs) stuck)
    | _ => Outcome.broken
  | neutral ty stuck, same rhs =>
    match ← ty.now with
    | equal space lhs _ =>
      return neutral (equal space lhs rhs) (.transLeft stuck (reflexive space rhs))
    | _ => Outcome.broken
  | neutral leftType leftStuck, neutral rightType rightStuck =>
    match ← leftType.now, ← rightType.now with
    | equal space lhs _, equal _ _ rhs =>
      return neutral (equal space lhs rhs) (.transBoth leftStuck rightStuck)
    | _, _ => Outcome.broken
  | _, _ => Outcome.broken

def cong (target result function : Value) : Outcome Value := do
  match ← target.now with
  | same point => return same (← ap.apply function point)
  | neutral ty stuck =>
    match ← ty.now with
    | equal space lhs rhs =>
      let lhs ← ap.apply function lhs
      let rhs ← ap.apply function rhs
      return neutral (equal result lhs rhs)
        (.cong stuck ⟨univ, result⟩ ⟨arrow "x" space result, function⟩)
    | _ => Outcome.broken
  | _ => Outcome.broken

def symm (target : Value) : Outcome Value := do
  match ← target.now with
  | same point => return same point
  | neutral ty stuck =>
    match ← ty.now with
    | equal space lhs rhs => return neutral (equal space rhs lhs) (.project .symm stuck)
    | _ => Outcome.broken
  | _ => Outcome.broken

def indEq (target motive base : Value) : Outcome Value := do
  match ← target.now with
  | same _ => return base
  | neutral ty stuck =>
    match ← ty.now with
    | equal space lhs rhs =>
      let baseType ← ap.apply (← ap.apply motive lhs) (same lhs)
      let result ← ap.apply (← ap.apply motive rhs) target
      return neutral result (.transport .indEq stuck ⟨indEqMotiveType space lhs, motive⟩
        ⟨baseType, base⟩)
    | _ => Outcome.broken
  | _ => Outcome.broken

/-! ## Lists of known length -/

def head (target : Value) : Outcome Value := do
  match ← target.now with
  | vecCons a _ => return a
  | neutral ty stuck =>
    match ← ty.now with
    | vec entry _ => return neutral entry (.project .head stuck)
    | _ => Outcome.broken
  | _ => Outcome.broken

def tail (target : Value) : Outcome Value := do
  match ← target.now with
  | vecCons _ rest => return rest
  | neutral ty stuck =>
    match ← ty.now with
    | vec entry length =>
      match ← length.now with
      | add1 previous => return neutral (vec entry previous) (.project .tail stuck)
      | _ => Outcome.broken
    | _ => Outcome.broken
  | _ => Outcome.broken

/-- `ind-Vec` on a list that is stuck, with a length that is not delayed. -/
def indVecStuck (motive base step length target ty : Value) (stuck : Neutral) :
    Outcome Value := do
  match ← ty.now with
  | vec entry _ =>
    let result ← ap.apply (← ap.apply motive length) target
    let baseType ← ap.apply (← ap.apply motive zero) (const .vecnil)
    let motiveNormal : Normal := ⟨indVecMotiveType entry, motive⟩
    let baseNormal : Normal := ⟨baseType, base⟩
    let stepNormal : Normal := ⟨indVecStepType entry motive, step⟩
    match length with
    | neutral _ stuckLength =>
      return neutral result (.indVecBoth stuckLength stuck motiveNormal baseNormal stepNormal)
    | _ =>
      return neutral result (.indVecTarget ⟨nat, length⟩ stuck motiveNormal
        baseNormal stepNormal)
  | _ => Outcome.broken

def indVec (motive base step : Value) : (fuel : Nat) → (length target : Value) → Outcome Value
  | 0, _, _ => Outcome.exhausted
  | fuel + 1, length, target => do
    let length ← length.now
    match length, ← target.now with
    | _, const .vecnil => return base
    | add1 previous, vecCons head tail =>
      let recursion ← indVec motive base step fuel previous tail
      ap.apply (← ap.apply (← ap.apply (← ap.apply step previous) head) tail) recursion
    | length, neutral ty stuck => indVecStuck ap motive base step length target ty stuck
    | _, _ => Outcome.broken

/-! ## Sums -/

def indEither (target motive left right : Value) : Outcome Value := do
  match ← target.now with
  | unary .left a => ap.apply left a
  | unary .right b => ap.apply right b
  | neutral ty stuck =>
    match ← ty.now with
    | either leftType rightType =>
      let result ← ap.apply motive target
      return neutral result (.induct .indEither stuck
        ⟨motiveType (either leftType rightType), motive⟩
          ⟨indEitherMethodType .left leftType motive, left⟩
            ⟨indEitherMethodType .right rightType motive, right⟩)
    | _ => Outcome.broken
  | _ => Outcome.broken

end Value

namespace Closure

/-- What a closure other than a captured term gives for an argument. -/
def instantiate (apply : Value → Value → Outcome Value) (closure : Closure) (argument : Value) :
    Outcome Value :=
  match closure with
  | captured _ _ _ => Outcome.broken
  | constant v => return v
  | indNatStep motive => do
    let hypothesis ← apply motive argument
    return .arrow "ih" hypothesis (← apply motive (.add1 argument))
  | indListStep entry motive => return .pi "es" (.list entry) (.indListStepTail motive argument)
  | indListStepTail motive head => do
    let hypothesis ← apply motive argument
    return .arrow "ih" hypothesis (← apply motive (.listCons head argument))
  | indEqMotive ty lhs => return .arrow "p" (.equal ty lhs argument) .univ
  | indVecMotive entry => return .arrow "es" (.vec entry argument) .univ
  | indVecStep entry motive => return .pi "e" entry (.indVecStepHead entry motive argument)
  | indVecStepHead entry motive length =>
    return .pi "es" (.vec entry length) (.indVecStepTail motive length argument)
  | indVecStepTail motive length head => do
    let hypothesis ← apply (← apply motive length) argument
    return .arrow "ih" hypothesis
      (← apply (← apply motive (.add1 length)) (.vecCons head argument))
  | indEitherMethod side motive => apply motive (.inject side argument)

end Closure

end PieChecker
