import PieChecker.Core.Printer
import PieChecker.Proofs.CallByNeed
import PieChecker.Proofs.FreeNames

set_option autoImplicit false

/-!
# Names that a term does not mention

What a term is evaluated to and read back as depends on the values of the names that it
mentions, and on nothing else in the environment. The values themselves may differ: a closure
keeps the whole environment. But what is kept for a name that the body does not mention is never
looked up, so the two runs go through values that are alike, and they end in the same way.

The printer relies on this where it shows a dependent type without its parameter.
-/

namespace PieChecker

open Likeness

/-! ## Runs that end in the same way -/

/-- The comparison of two runs that have the same names and end in the same way, whichever that
is. -/
def Comparison.exact (strategy : Strategy) : Comparison :=
  { Comparison.itself strategy (fun _ => True) True with
    binder := Eq
    agreed := fun _ => True
    agreed_broken := True.intro
    agreed_exhausted := True.intro
    anyOperand := True }

namespace Comparison

variable {strategy : Strategy}

theorem exact_isReflexive : (exact strategy).IsReflexive :=
  ⟨fun _ => rfl, fun _ => rfl, fun _ => True.intro, True.intro⟩

/-- Two ways of computing a term are equal if what they end in corresponds exactly. -/
theorem eq_of_exact {r s : Outcome Core}
    (h : (exact strategy).Outcomes (Core.Related (exact strategy) Eq) r s) :
    r = s := by
  cases r with
  | ok t =>
    cases s with
    | ok u => exact congrArg Except.ok (Core.Related.eq_of_sameNames rfl rfl h rfl)
    | error _ => exact False.elim h
  | error e =>
    cases s with
    | ok _ => exact False.elim h
    | error f =>
      obtain h | h | ⟨rfl, _⟩ := h
      · exact h.elim
      · exact h.elim
      · rfl

/-- Read-back takes values that are alike to the same term. -/
theorem reads_exact (n : Nat) : Reads (K := exact strategy) (.sameNames rfl True.intro) n n :=
  reads (fun _ => rfl) _ (fuels_refl n)

end Comparison

/-! ## Environments that agree on the names of a term -/

/-- Two environments give the same value to every name that the term mentions. -/
def Core.AgreeOn (t : Core) (ρ ρ' : Environment) : Prop :=
  ∀ x, t.mentions x = true → ρ.lookup x = ρ'.lookup x

namespace Core

variable {strategy : Strategy} {t : Core} {ρ ρ' : Environment}

theorem AgreeOn.environments (h : t.AgreeOn ρ ρ') :
    (renamed (.exact strategy) Eq).Environments
    (fun a b => a = b ∧ t.mentions a = true) ρ ρ' where
  isSome_eq := by
    rintro a _ ⟨rfl, ha⟩
    rw [h a ha]
  unbound _ _ _ _ := True.intro
  value := by
    rintro a _ v w ⟨rfl, ha⟩ hv hw
    rw [h a ha, hw] at hv
    obtain rfl : w = v := Option.some.inj hv
    have hwithin : w.Within Eq := fun _ _ => rfl
    exact hwithin.itself Comparison.exact_isReflexive

/-- A term is evaluated to values that are alike in environments that agree on its names. -/
theorem AgreeOn.evaluate (h : t.AgreeOn ρ ρ') (n : Nat) :
    (Comparison.exact strategy).Outcomes (renamed (.exact strategy) Eq).value
    (t.evaluate strategy n ρ)
      (t.evaluate strategy n ρ') := by
  refine (renamed_evaluates (fun _ => rfl) (Comparison.fuels_refl n)).1 h.environments ?_
  exact .refl (fun _ => rfl) (fun _ => rfl) fun y hy => ⟨rfl, hy⟩

/-- What a term means at a type is the same in environments that agree on its names. -/
theorem AgreeOn.readBack_eq (h : t.AgreeOn ρ ρ') (n m : Nat) (Γ : Context) (T : Value) :
    (t.evaluate strategy n ρ >>= Γ.readBack ⟨strategy, m⟩ T) =
      (t.evaluate strategy n ρ' >>= Γ.readBack ⟨strategy, m⟩ T) := by
  have hT : T.Within Eq := fun _ _ => rfl
  refine Comparison.eq_of_exact ((h.evaluate n).bind fun v w hv => ?_)
  have hTT : (renamed (.exact strategy) Eq).value T T := hT.itself Comparison.exact_isReflexive
  exact (Comparison.reads_exact m).value (W := ⟨Γ.names, Γ.names, Eq⟩) ⟨rfl, rfl⟩ hTT hv

/-- What a term means as a type is the same in environments that agree on its names. -/
theorem AgreeOn.readBackType_eq (h : t.AgreeOn ρ ρ') (n m : Nat) (Γ : Context) :
    (t.evaluate strategy n ρ >>= Γ.readBackType ⟨strategy, m⟩) =
      (t.evaluate strategy n ρ' >>= Γ.readBackType ⟨strategy, m⟩) := by
  refine Comparison.eq_of_exact ((h.evaluate n).bind fun v w hv => ?_)
  exact (Comparison.reads_exact m).type (W := ⟨Γ.names, Γ.names, Eq⟩) ⟨rfl, rfl⟩ hv

/-- The value of a name that a term does not mention is of no account. -/
theorem agreeOn_cons {x : String} (h : t.mentions x = false) (ρ : Environment) (a b : Value) :
    t.AgreeOn ((x, a) :: ρ) ((x, b) :: ρ) := by
  intro y hy
  have hyx : (y == x) = false := by
    refine beq_eq_false_iff_ne.2 fun hyx => ?_
    rw [hyx, h] at hy
    cases hy
  simp only [List.lookup_cons, hyx]

/-! ## Families that do not depend -/

/-- A dependent type keeps the environment that its family needs. -/
theorem exists_of_evaluate_quant {q : Quantifier} {x : String} {base family : Core}
    {n : Nat} {v : Value} (h : (quant q x base family).evaluate strategy n ρ = .ok v) :
    ∃ B, v = .quant q x B (.captured ρ x family) := by
  cases n with
  | zero => cases h
  | succ n =>
    rw [Core.evaluate] at h
    obtain ⟨B, _, hv⟩ := bind_eq_ok_iff.1 h
    cases hv
    exact ⟨B, rfl⟩

/-- A family that does not mention its parameter gives the same type for every argument. -/
theorem readBackType_run_eq {x : String} {family : Core} (h : family.mentions x = false)
    (n m : Nat) (Γ : Context) (a b : Value) :
    (Closure.run strategy n (.captured ρ x family) a >>= Γ.readBackType ⟨strategy, m⟩) =
      (Closure.run strategy n (.captured ρ x family) b >>= Γ.readBackType ⟨strategy, m⟩) := by
  cases n with
  | zero => rfl
  | succ n =>
    rw [Closure.run, Closure.run]
    exact (agreeOn_cons h ρ a b).readBackType_eq n m Γ

/-- A dependent type is printed without its parameter if the family does not mention it. -/
theorem print_of_not_mentions {q : Quantifier} {x : String} {base family : Core}
    (h : family.mentions x = false) :
    (quant q x base family).print =
      match q with
      | .pi => "(-> " ++ (base.print ++ " " ++ family.printAt .afterDomain)
      | .sigma => bracketed "Pair" [base.print, family.print] := by
  cases q <;> simp [print, printAt, h, Place.finish]

/-- The names that a term mentions are all that its meaning depends on. In two environments that
give them the same values, evaluating the term and reading it back, at any type or as a type,
gives the same term, stops in the same way, or needs more than the same fuel. So the family of a
dependent type that does not mention its parameter, which is printed as an arrow or as a pair,
gives the same type for every argument. -/
theorem mentions_sound (strategy : Strategy) (n m : Nat) (Γ : Context) :
    (∀ (t : Core) (ρ ρ' : Environment), t.AgreeOn ρ ρ' →
      (∀ T, (t.evaluate strategy n ρ >>= Γ.readBack ⟨strategy, m⟩ T) =
        (t.evaluate strategy n ρ' >>= Γ.readBack ⟨strategy, m⟩ T)) ∧
      (t.evaluate strategy n ρ >>= Γ.readBackType ⟨strategy, m⟩) =
        (t.evaluate strategy n ρ' >>= Γ.readBackType ⟨strategy, m⟩)) ∧
    (∀ (q : Quantifier) (x : String) (base family : Core), family.mentions x = false →
      ((quant q x base family).print =
        match q with
        | .pi => "(-> " ++ (base.print ++ " " ++ family.printAt .afterDomain)
        | .sigma => bracketed "Pair" [base.print, family.print]) ∧
      ∀ (ρ : Environment) (v : Value), (quant q x base family).evaluate strategy n ρ = .ok v →
        ∃ B c, v = .quant q x B c ∧ ∀ k a b,
          (c.run strategy k a >>= Γ.readBackType ⟨strategy, m⟩) =
            (c.run strategy k b >>= Γ.readBackType ⟨strategy, m⟩)) := by
  refine ⟨?_, ?_⟩
  · intro t ρ ρ' h
    exact ⟨h.readBack_eq n m Γ, h.readBackType_eq n m Γ⟩
  · intro q x base family h
    refine ⟨print_of_not_mentions h, fun ρ v hv => ?_⟩
    obtain ⟨B, rfl⟩ := exists_of_evaluate_quant hv
    exact ⟨B, _, rfl, fun k a b => readBackType_run_eq h k m Γ a b⟩

/-- A function of numbers does not depend on the value of the name `y`, which its body does not
mention and which has a value in one of the environments only. -/
theorem mentions_sound_constantFunction :
    (lam "n" (.var "k")).AgreeOn [("k", .zero), ("y", .nat)] [("k", .zero)] ∧
    (lam "n" (.var "k")).evaluate .onDemand 2 [("k", .zero), ("y", .nat)] ≠
      (lam "n" (.var "k")).evaluate .onDemand 2 [("k", .zero)] ∧
    ((lam "n" (.var "k")).evaluate .onDemand 2 [("k", .zero), ("y", .nat)] >>=
        Context.empty.readBack ⟨.onDemand, 4⟩ (.arrow "n" .nat .nat)) =
      ((lam "n" (.var "k")).evaluate .onDemand 2 [("k", .zero)] >>=
        Context.empty.readBack ⟨.onDemand, 4⟩ (.arrow "n" .nat .nat)) := by
  have hagree : (lam "n" (.var "k")).AgreeOn [("k", .zero), ("y", .nat)] [("k", .zero)] := by
    intro x hx
    simp only [mentions, Bool.and_eq_true, decide_eq_true_eq] at hx
    rw [← hx.2]
    rfl
  have hdiffer : (lam "n" (.var "k")).evaluate .onDemand 2 [("k", .zero), ("y", .nat)] ≠
      (lam "n" (.var "k")).evaluate .onDemand 2 [("k", .zero)] := by
    intro h
    cases h
  exact ⟨hagree, hdiffer, ((mentions_sound .onDemand 2 4 .empty).1 _ _ _ hagree).1 _⟩

end Core

end PieChecker
