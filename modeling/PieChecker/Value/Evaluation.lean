import PieChecker.Value.Elimination

set_option autoImplicit false

/-!
# Evaluating core terms

Evaluation goes into a term only as far as needed. The parts of constructors and the arguments
of applications are delayed, unless they are so small that delaying would cost more than
evaluating; everything else is evaluated at once. The alternative strategy delays nothing, and
is what evaluation on demand is measured against.

Fuel bounds the depth of the recursion. A delayed part keeps the fuel that was left where it was
delayed.
-/

namespace PieChecker

/-- When the delayable parts of a term are evaluated. -/
inductive Strategy where
  | onDemand | atOnce
  deriving DecidableEq, Repr

namespace Core

/-- Is the term evaluated at once even where others are delayed? -/
def isImmediate : Core → Bool
  | var _ | const _ | quote _ => true
  | _ => false

end Core

namespace Value

/-- Delays an evaluation. The value kept is never itself a delayed one. -/
def suspend (evaluation : Unit → Outcome Value) : Value :=
  delay (Thunk.mk fun _ => Delayed.ofOutcome (evaluation () >>= now))

@[simp] theorem now_suspend (evaluation : Unit → Outcome Value) :
    (suspend evaluation).now = evaluation () >>= now := by
  have hforced : ∀ r, evaluation () >>= now ≠ .ok (delay r) := by
    intro r
    cases evaluation () with
    | ok v => exact now_ne_delay v r
    | error s => exact nofun
  rw [suspend, now_delay]
  · simp only [Thunk.get, Delayed.outcome_ofOutcome]
  · simpa only [Thunk.get, Delayed.outcome_ofOutcome] using hforced

end Value

/-- Evaluates a part that may be delayed. -/
def Strategy.part (strategy : Strategy) (evaluate : Core → Outcome Value) (term : Core) :
    Outcome Value :=
  match strategy with
  | .atOnce => evaluate term
  | .onDemand =>
    if term.isImmediate then evaluate term else return .suspend fun _ => evaluate term

mutual

/-- Evaluates a core term whose free names have the given values. -/
def Core.evaluate (strategy : Strategy) : (fuel : Nat) → Environment → Core → Outcome Value
  | 0, _, _ => Outcome.exhausted
  | fuel + 1, ρ, term =>
    let now := Core.evaluate strategy fuel ρ
    let later := strategy.part now
    let ap : Application := ⟨Value.apply strategy fuel, Closure.run strategy fuel⟩
    match term with
    | .var x =>
      match ρ.lookup x with
      | some v => return v
      | none => Outcome.unbound
    | .const c => return .const c
    | .quote a => return .quote a
    | .todo span ty => do
      let ty ← now ty
      return .neutral ty (.todo span ty)
    | .quant q x base family => return .quant q x (← now base) (.captured ρ x family)
    | .lam x body => return .lam x (.captured ρ x body)
    | .unary o a =>
      match o with
      | .add1 => return .add1 (← later a)
      | .car => do (← now a).car
      | .cdr => do (← now a).cdr ap
      | .list => return .list (← now a)
      | .same => return .same (← later a)
      | .symm => do (← now a).symm
      | .head => do (← now a).head
      | .tail => do (← now a).tail
      | .left => return .unary .left (← later a)
      | .right => return .unary .right (← later a)
    | .binary o a b =>
      match o with
      | .the => now b
      | .apply => do Value.apply strategy fuel (← now a) (← later b)
      | .cons => return .cons (← later a) (← later b)
      | .listCons => return .listCons (← later a) (← later b)
      | .indAbsurd => do (← now a).indAbsurd (← now b)
      | .trans => do (← now a).trans (← now b)
      | .vec => return .vec (← now a) (← now b)
      | .vecCons => return .vecCons (← later a) (← later b)
      | .either => return .either (← now a) (← now b)
    | .ternary o a b c =>
      match o with
      | .equal => return .equal (← now a) (← later b) (← later c)
      | .replace => do (← now a).replace ap (← now b) (← now c)
      | .cong => do (← now a).cong ap (← now b) (← now c)
      | .indEq => do (← now a).indEq ap (← now b) (← now c)
    | .quaternary o a b c d => do
      let a ← now a
      let b ← now b
      let c ← now c
      let d ← now d
      match o with
      | .whichNat => a.whichNat ap b c d
      | .iterNat => Value.iterNat ap b c d fuel a
      | .recNat => Value.recNat ap b c d fuel a
      | .recList => Value.recList ap b c d fuel a
      | .indNat => Value.indNat ap b c d fuel a
      | .indList => Value.indList ap b c d fuel a
      | .indEither => a.indEither ap b c d
    | .indVec length target motive base step => do
      let target ← now target
      let length ← now length
      let motive ← now motive
      let base ← now base
      let step ← now step
      Value.indVec ap motive base step fuel length target

/-- Applies a function to an argument. -/
def Value.apply (strategy : Strategy) : (fuel : Nat) → (function argument : Value) →
    Outcome Value
  | 0, _, _ => Outcome.exhausted
  | fuel + 1, function, argument => do
    match ← function.now with
    | .lam _ body => Closure.run strategy fuel body argument
    | .neutral ty stuck =>
      match ← ty.now with
      | .pi _ base family =>
        return .neutral (← Closure.run strategy fuel family argument)
          (.apply stuck ⟨base, argument⟩)
      | _ => Outcome.broken
    | _ => Outcome.broken

/-- Gives a closure its argument. -/
def Closure.run (strategy : Strategy) : (fuel : Nat) → Closure → (argument : Value) →
    Outcome Value
  | 0, _, _ => Outcome.exhausted
  | fuel + 1, closure, argument =>
    match closure with
    | .captured ρ x body => Core.evaluate strategy fuel ((x, argument) :: ρ) body
    | other => other.instantiate (Value.apply strategy fuel) argument

end

/-! ## Operands

The operands of a term are evaluated first, at once or as parts that may be delayed, and what
evaluation does then depends on their values only. -/

namespace Core

section Operands

variable {e f g h : Core → Outcome Value} {s t u w : Core} {v : Value}

theorem binary_operands_of_eq_ok {finish : Value → Value → Outcome Value}
    (hv : (do finish (← e s) (← f t)) = .ok v) :
    ∃ a b, e s = .ok a ∧ f t = .ok b ∧ finish a b = .ok v := by
  obtain ⟨a, ha, hv⟩ := bind_eq_ok_iff.1 hv
  obtain ⟨b, hb, hv⟩ := bind_eq_ok_iff.1 hv
  exact ⟨a, b, ha, hb, hv⟩

theorem ternary_operands_of_eq_ok {finish : Value → Value → Value → Outcome Value}
    (hv : (do finish (← e s) (← f t) (← g u)) = .ok v) :
    ∃ a b c, e s = .ok a ∧ f t = .ok b ∧ g u = .ok c ∧ finish a b c = .ok v := by
  obtain ⟨a, ha, hv⟩ := bind_eq_ok_iff.1 hv
  obtain ⟨b, c, hb, hc, hv⟩ := binary_operands_of_eq_ok hv
  exact ⟨a, b, c, ha, hb, hc, hv⟩

theorem quaternary_operands_of_eq_ok {finish : Value → Value → Value → Value → Outcome Value}
    (hv : (do finish (← e s) (← f t) (← g u) (← h w)) = .ok v) :
    ∃ a b c d, e s = .ok a ∧ f t = .ok b ∧ g u = .ok c ∧ h w = .ok d ∧
      finish a b c d = .ok v := by
  obtain ⟨a, ha, hv⟩ := bind_eq_ok_iff.1 hv
  obtain ⟨b, c, d, hb, hc, hd, hv⟩ := ternary_operands_of_eq_ok hv
  exact ⟨a, b, c, d, ha, hb, hc, hd, hv⟩

end Operands

end Core

end PieChecker
