import PieChecker.Value.Evaluation

set_option autoImplicit false

/-!
# Comparing two computations

Two computations that do corresponding steps end in corresponding ways: both give a result, or
both give none. How strictly this is meant depends on why they are compared. If a side is slower
than the other, it may run out of fuel where the other does not; if the two choose names
differently, only one may find no name left.

`Compared` is the relation between two results of this kind, for any correspondence of values
and of errors. A stop of one side is *free* if nothing is claimed after it. Everything else
about it is in `Compared.bind`: what is done in corresponding ways after corresponding results
ends in corresponding ways.
-/

namespace PieChecker

section Compared

variable {ε δ α β γ τ : Type}

/-- Two results correspond: both are values that correspond, or both are errors that correspond,
unless a side ended in an error after which nothing is claimed. -/
def Compared (leftFree : ε → Prop) (rightFree : δ → Prop) (errors : ε → δ → Prop)
    (values : α → β → Prop) :
    Except ε α → Except δ β → Prop
  | .ok a, .ok b => values a b
  | .error e, .error f => leftFree e ∨ rightFree f ∨ errors e f
  | .error e, .ok _ => leftFree e
  | .ok _, .error f => rightFree f

namespace Compared

variable {leftFree : ε → Prop} {rightFree : δ → Prop} {errors : ε → δ → Prop}

theorem of_ok {R : α → β → Prop} {a : α} {b : β} (h : R a b) :
    Compared leftFree rightFree errors R (.ok a) (.ok b) := h

theorem of_left {R : α → β → Prop} {e : ε} (he : leftFree e) (s : Except δ β) :
    Compared leftFree rightFree errors R (.error e) s := by
  cases s with
  | ok b => exact he
  | error f => exact Or.inl he

theorem of_right {R : α → β → Prop} {f : δ} (hf : rightFree f) (r : Except ε α) :
    Compared leftFree rightFree errors R r (.error f) := by
  cases r with
  | ok a => exact hf
  | error e => exact Or.inr (Or.inl hf)

theorem of_errors {R : α → β → Prop} {e : ε} {f : δ} (h : errors e f) :
    Compared leftFree rightFree errors R (.error e) (.error f) :=
  Or.inr (Or.inr h)

/-- What is done in corresponding ways after corresponding results ends in corresponding
ways. -/
theorem bind {R : α → β → Prop} {S : γ → τ → Prop} {r : Except ε α} {s : Except δ β}
    {f : α → Except ε γ} {g : β → Except δ τ} (h : Compared leftFree rightFree errors R r s)
    (next : ∀ a b, R a b → Compared leftFree rightFree errors S (f a) (g b)) :
    Compared leftFree rightFree errors S (r >>= f) (s >>= g) := by
  cases r with
  | ok a =>
    cases s with
    | ok b => exact next a b h
    | error e =>
      have he : rightFree e := h
      exact of_right he (f a)
  | error e =>
    cases s with
    | ok b =>
      have he : leftFree e := h
      exact of_left he (g b)
    | error e' => exact h

/-- Results that are values correspond as values. -/
theorem of_eq_ok {R : α → β → Prop} {r : Except ε α} {s : Except δ β}
    (h : Compared leftFree rightFree errors R r s) {a : α} {b : β} (hr : r = .ok a)
    (hs : s = .ok b) : R a b := by
  rw [hr, hs] at h
  exact h

/-- Corresponding values may be replaced by others that correspond more loosely. -/
theorem mono {R S : α → β → Prop} {r : Except ε α} {s : Except δ β}
    (h : Compared leftFree rightFree errors R r s) (imp : ∀ a b, R a b → S a b) :
    Compared leftFree rightFree errors S r s := by
  cases r with
  | ok a =>
    cases s with
    | ok b => exact imp a b h
    | error e => exact h
  | error e =>
    cases s with
    | ok b => exact h
    | error e' => exact h

/-- So may corresponding errors. -/
theorem mono_errors {R : α → β → Prop} {errors' : ε → δ → Prop} {r : Except ε α}
    {s : Except δ β} (h : Compared leftFree rightFree errors R r s)
    (imp : ∀ e f, errors e f → errors' e f) :
    Compared leftFree rightFree errors' R r s := by
  cases r with
  | ok a =>
    cases s with
    | ok b => exact h
    | error e => exact h
  | error e =>
    cases s with
    | ok b => exact h
    | error e' => exact h.imp id (Or.imp id (imp e e'))

end Compared

end Compared

/-- What two runs of the evaluator have in common, and what may differ between them. -/
structure Comparison where
  /-- The strategies of the two runs. -/
  left : Strategy
  right : Strategy
  /-- The names of binders that may stand for each other. -/
  binder : String → String → Prop
  /-- The spans of unfinished parts that stand for each other. -/
  span : Span → Span → Prop
  /-- The stops of each side after which nothing is claimed. -/
  leftFree : Stop → Prop
  rightFree : Stop → Prop
  /-- The stops that the two sides may have in common. -/
  agreed : Stop → Prop
  agreed_broken : agreed .broken
  agreed_exhausted : agreed .exhausted
  /-- Only a run that delays nothing may stop where the other one goes on, since it may need
  less. -/
  strategies : left = right ∨ (left = .atOnce ∧ right = .onDemand ∧ ∀ s, leftFree s) ∨
    (left = .onDemand ∧ right = .atOnce ∧ ∀ s, rightFree s)
  /-- May a `trans` that waits for one operand have any value as the other one? Evaluation puts
  nothing but a reflexive equality there. -/
  anyOperand : Prop := False

namespace Comparison

variable (K : Comparison)

/-- Two outcomes correspond. -/
abbrev Outcomes {α β : Type} (R : α → β → Prop) : Outcome α → Outcome β → Prop :=
  Compared K.leftFree K.rightFree (fun s t => s = t ∧ K.agreed s) R

/-- Amounts of fuel under which the two runs can be compared: less fuel may make a side stop
earlier. -/
def Fuels (n m : Nat) : Prop :=
  n = m ∨ (n ≤ m ∧ K.leftFree .exhausted) ∨ (m ≤ n ∧ K.rightFree .exhausted)

variable {K}

theorem outcomes_broken {α β : Type} (R : α → β → Prop) :
    K.Outcomes R (Outcome.broken : Outcome α) (Outcome.broken : Outcome β) :=
  Compared.of_errors ⟨rfl, K.agreed_broken⟩

theorem fuels_refl (n : Nat) : K.Fuels n n := Or.inl rfl

theorem Fuels.of_succ {n m : Nat} (h : K.Fuels (n + 1) (m + 1)) : K.Fuels n m := by
  rcases h with h | ⟨h, hf⟩ | ⟨h, hf⟩
  · exact Or.inl (by omega)
  · exact Or.inr (Or.inl ⟨by omega, hf⟩)
  · exact Or.inr (Or.inr ⟨by omega, hf⟩)

/-- A side without fuel is exhausted, and either so is the other one or that does not matter. -/
theorem Fuels.zero_left {α β : Type} {R : α → β → Prop} {m : Nat} (h : K.Fuels 0 m)
    {r : Nat → Outcome β} (hr : r 0 = Outcome.exhausted) :
    K.Outcomes R (Outcome.exhausted : Outcome α) (r m) := by
  rcases h with h | ⟨_, hf⟩ | ⟨h, hf⟩
  · subst h
    rw [hr]
    exact Compared.of_errors ⟨rfl, K.agreed_exhausted⟩
  · exact Compared.of_left hf _
  · obtain rfl : m = 0 := by omega
    rw [hr]
    exact Compared.of_errors ⟨rfl, K.agreed_exhausted⟩

theorem Fuels.zero_right {α β : Type} {R : α → β → Prop} {n : Nat} (h : K.Fuels (n + 1) 0)
    (r : Outcome α) :
    K.Outcomes R r (Outcome.exhausted : Outcome β) := by
  rcases h with h | ⟨h, _⟩ | ⟨_, hf⟩
  · omega
  · omega
  · exact Compared.of_right hf r

end Comparison

end PieChecker
