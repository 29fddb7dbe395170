import PieChecker.Core.Basic
import PieChecker.Outcome

set_option autoImplicit false

/-!
# Values

Evaluation gives values. A value is built by a constructor whose parts may still be delayed, or
it is neutral: an elimination that waits for a variable or an unfinished part. A neutral value
carries its type, and so does every operand stored inside a neutral one, since read-back is
directed by types.

A delayed part is the outcome of its evaluation, computed when it is first asked for and then
kept. What a family of types does with its argument is a `Closure`: either a core term in an
environment, or one of a few fixed shapes that the types of eliminators' operands have.
-/

namespace PieChecker

namespace Value

/-- The constructors of values with one part. -/
inductive Unary where
  | add1 | list | same | left | right
  deriving DecidableEq, Repr

/-- The constructors of values with two parts. -/
inductive Binary where
  | cons | listCons | vec | vecCons | either
  deriving DecidableEq, Repr

end Value

namespace Neutral

/-- The eliminators whose target is their only operand. -/
inductive Projection where
  | car | cdr | symm | head | tail
  deriving DecidableEq, Repr

/-- The eliminators with a base and a step at a fixed type. -/
inductive Recursor where
  | whichNat | iterNat | recNat | recList
  deriving DecidableEq, Repr

/-- The eliminators of equalities with a motive and a base. -/
inductive Transport where
  | replace | indEq
  deriving DecidableEq, Repr

/-- The eliminators with a motive and two methods. -/
inductive Inductor where
  | indNat | indList | indEither
  deriving DecidableEq, Repr

end Neutral

/-- The sides of a sum. -/
inductive Side where
  | left | right
  deriving DecidableEq, Repr

mutual

/-- A value. -/
inductive Value where
  | neutral (ty : Value) (stuck : Neutral)
  | delay (result : Thunk Delayed)
  | const (c : Const)
  | quote (a : String)
  | quant (q : Quantifier) (x : String) (base : Value) (family : Closure)
  | lam (x : String) (body : Closure)
  | unary (o : Value.Unary) (a : Value)
  | binary (o : Value.Binary) (a b : Value)
  | equal (ty lhs rhs : Value)

/-- The outcome of a delayed evaluation. -/
inductive Delayed where
  | value (v : Value)
  | stopped (stop : Stop)

/-- An elimination that cannot go on. -/
inductive Neutral where
  | var (x : String)
  | todo (span : Span) (ty : Value)
  | project (o : Neutral.Projection) (target : Neutral)
  | apply (function : Neutral) (argument : Normal)
  | recursor (o : Neutral.Recursor) (target : Neutral) (base step : Normal)
  | transport (o : Neutral.Transport) (target : Neutral) (motive base : Normal)
  | induct (o : Neutral.Inductor) (target : Neutral) (motive first second : Normal)
  | indAbsurd (target : Neutral) (motive : Normal)
  | cong (target : Neutral) (resultType function : Normal)
  /-- Waits for its left operand only. -/
  | transLeft (left : Neutral) (right : Normal)
  /-- Waits for its right operand only. -/
  | transRight (left : Normal) (right : Neutral)
  | transBoth (left right : Neutral)
  /-- Waits for the list; the length is known. -/
  | indVecTarget (length : Normal) (target : Neutral) (motive base step : Normal)
  /-- Waits for the length and the list. -/
  | indVecBoth (length target : Neutral) (motive base step : Normal)

/-- A value with its type. -/
inductive Normal where
  | mk (ty value : Value)

/-- A value that depends on an argument. -/
inductive Closure where
  /-- A body whose free names stand in an environment, apart from the parameter. -/
  | captured (environment : List (String × Value)) (x : String) (body : Core)
  /-- The same value for every argument. -/
  | constant (v : Value)
  /-- What follows the number below in the type of a step of `ind-Nat`. -/
  | indNatStep (motive : Value)
  /-- What follows the first entry in the type of a step of `ind-List`. -/
  | indListStep (entry motive : Value)
  /-- What follows the other entries in the type of a step of `ind-List`. -/
  | indListStepTail (motive head : Value)
  /-- What follows the right side in the type of a motive of `ind-=`. -/
  | indEqMotive (ty lhs : Value)
  /-- What follows the length in the type of a motive of `ind-Vec`. -/
  | indVecMotive (entry : Value)
  /-- What follows the length in the type of a step of `ind-Vec`. -/
  | indVecStep (entry motive : Value)
  /-- What follows the first entry in the type of a step of `ind-Vec`. -/
  | indVecStepHead (entry motive length : Value)
  /-- What follows the other entries in the type of a step of `ind-Vec`. -/
  | indVecStepTail (motive length head : Value)
  /-- The type of a method of `ind-Either`. -/
  | indEitherMethod (side : Side) (motive : Value)

end

/-- The values of free names, the newest first. -/
abbrev Environment := List (String × Value)

namespace Delayed

/-- The outcome that a delayed evaluation stands for. -/
def outcome : Delayed → Outcome Value
  | value v => .ok v
  | stopped stop => .error stop

/-- An outcome as the result of a delayed evaluation. -/
def ofOutcome : Outcome Value → Delayed
  | .ok v => value v
  | .error stop => stopped stop

@[simp] theorem outcome_ofOutcome (r : Outcome Value) : (ofOutcome r).outcome = r := by
  cases r <;> rfl

@[simp] theorem ofOutcome_outcome (d : Delayed) : ofOutcome d.outcome = d := by
  cases d <;> rfl

end Delayed

namespace Value

@[match_pattern] abbrev univ : Value := const .univ
@[match_pattern] abbrev nat : Value := const .nat
@[match_pattern] abbrev zero : Value := const .zero
@[match_pattern] abbrev add1 (n : Value) : Value := unary .add1 n
@[match_pattern] abbrev list (entry : Value) : Value := unary .list entry
@[match_pattern] abbrev same (point : Value) : Value := unary .same point
@[match_pattern] abbrev pi (x : String) (base : Value) (family : Closure) : Value :=
  quant .pi x base family
@[match_pattern] abbrev sigma (x : String) (base : Value) (family : Closure) : Value :=
  quant .sigma x base family
@[match_pattern] abbrev cons (car cdr : Value) : Value := binary .cons car cdr
@[match_pattern] abbrev listCons (head tail : Value) : Value := binary .listCons head tail
@[match_pattern] abbrev vec (entry length : Value) : Value := binary .vec entry length
@[match_pattern] abbrev vecCons (head tail : Value) : Value := binary .vecCons head tail
@[match_pattern] abbrev either (left right : Value) : Value := binary .either left right

/-- The value itself, or the outcome of the evaluation that it delays. The result is never a
delayed value, since nothing is delayed twice. -/
def now : Value → Outcome Value
  | delay result =>
    match result.get.outcome with
    | .ok (delay _) => Outcome.broken
    | outcome => outcome
  | v => .ok v

/-- Forcing a value never gives a delayed one. -/
theorem now_ne_delay (v : Value) (r : Thunk Delayed) : v.now ≠ .ok (delay r) := by
  cases v with
  | delay result =>
    rw [now]
    split
    · exact nofun
    · rename_i hdelay
      exact hdelay r
  | _ => exact nofun

/-- Forcing a value that is not delayed changes nothing, so forcing it twice is forcing it
once. -/
theorem now_of_now {v w : Value} (h : v.now = .ok w) : w.now = .ok w := by
  cases w with
  | delay r => exact (now_ne_delay v r h).elim
  | _ => rfl

/-- Forcing gives what was delayed, unless that is a delayed value again. -/
theorem now_delay {result : Thunk Delayed} (h : ∀ r, result.get.outcome ≠ .ok (delay r)) :
    (delay result).now = result.get.outcome := by
  rw [now]
  split
  · rename_i r hr
    exact (h r hr).elim
  · rfl

theorem get_of_now_delay {result : Thunk Delayed} {w : Value} (h : (delay result).now = .ok w) :
    result.get = .value w := by
  rw [now] at h
  split at h
  · cases h
  · rw [← Delayed.ofOutcome_outcome result.get, h]
    rfl

/-- The variable of the given name and type. -/
def var (x : String) (ty : Value) : Value := neutral ty (.var x)

/-- The type of functions whose results all have the same type. -/
def arrow (x : String) (base result : Value) : Value := pi x base (.constant result)

end Value

end PieChecker
