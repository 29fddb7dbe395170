import PieChecker.Proofs.CallByNeed
import PieChecker.Proofs.FreeNames

set_option autoImplicit false

/-!
# Runs that both return

Two evaluations of the same term need not take the same fuel, and what one of them has delayed
the other one may know. Whenever both of them return, they agree: the values are forced to the
same constructor, with parts that agree again, as long as forcing them returns. Functions that
agree give results that agree, and values that agree are read back to the same term.

A value stands for a term if it is forced to what some evaluation of the term is forced to. The
delayed parts of an evaluated term stand for the parts of the term. All values that stand for a
term agree.
-/

namespace PieChecker

open Likeness

/-- The comparison of two runs with the same names, where nothing is claimed unless both of them
return. -/
def Comparison.returning (strategy : Strategy) : Comparison where
  left := strategy
  right := strategy
  binder := Eq
  span := Eq
  leftFree _ := True
  rightFree _ := True
  agreed _ := True
  agreed_broken := True.intro
  agreed_exhausted := True.intro
  strategies := Or.inl rfl
  anyOperand := True

namespace Comparison

variable {strategy : Strategy}

theorem returning_isReflexive : (returning strategy).IsReflexive :=
  ⟨fun _ => rfl, fun _ => rfl, fun _ => True.intro, True.intro⟩

theorem fuels_returning (n m : Nat) : (returning strategy).Fuels n m := by
  rcases Nat.le_total n m with h | h
  · exact Or.inr (Or.inl ⟨h, True.intro⟩)
  · exact Or.inr (Or.inr ⟨h, True.intro⟩)

theorem outcomes_returning {α β : Type} {R : α → β → Prop} {r : Outcome α} {s : Outcome β}
    (h : ∀ a b, r = .ok a → s = .ok b → R a b) : (returning strategy).Outcomes R r s := by
  cases r with
  | error e => exact Compared.of_left True.intro s
  | ok a =>
    cases s with
    | error e => exact True.intro
    | ok b => exact h a b rfl rfl

end Comparison

namespace Value

variable {strategy : Strategy} {v w : Value}

/-- Values that are alike as far as both of them can be forced. -/
def Agrees (strategy : Strategy) (v w : Value) : Prop :=
  (renamed (.returning strategy) Eq).value v w

theorem Agrees.refl (v : Value) : v.Agrees strategy v := by
  have hwithin : v.Within Eq := fun _ _ => rfl
  exact hwithin.itself Comparison.returning_isReflexive

/-- What values that agree do with arguments that agree. -/
theorem Agrees.apply {f f' a a' : Value} (hf : f.Agrees strategy f')
    (ha : a.Agrees strategy a') {n m : Nat} (hv : f.apply strategy n a = .ok v)
    (hw : f'.apply strategy m a' = .ok w) : v.Agrees strategy w :=
  ((renamed_evaluates (fun _ => rfl) (Comparison.fuels_returning n m)).2.apply
    hf ha).of_eq_ok hv hw

/-- Values that agree are read back to the same term. -/
theorem Agrees.readBack_eq (h : v.Agrees strategy w) {T : Value} {names : List String}
    {n m : Nat} {t u : Core} (ht : T.readBack strategy n names v = .ok t)
    (hu : T.readBack strategy m names w = .ok u) : t = u := by
  have hW : (Worlds.sameNames (K := .returning strategy) rfl True.intro).admits
      ⟨names, names, Eq⟩ := ⟨rfl, rfl⟩
  have hread := (reads (fun _ => rfl) _ (Comparison.fuels_returning n m)).value hW
    (Agrees.refl T) h
  exact Core.Related.eq_of_sameNames rfl rfl (hread.of_eq_ok ht hu) rfl

/-- The value is forced to what some value with the given property is forced to. -/
def Later (P : Value → Prop) (v : Value) : Prop := ∀ w, v.now = .ok w → ∃ u, P u ∧ u.now = .ok w

section Later

variable {P Q : Value → Prop}

theorem Later.of (h : P v) : Later P v := fun _ hw => ⟨v, h, hw⟩

/-- A part that may be delayed is forced to what its evaluation is forced to. -/
theorem Later.of_part {evaluate : Core → Outcome Value} {t : Core}
    (h : ∀ u, evaluate t = .ok u → P u) (hv : strategy.part evaluate t = .ok v) :
    Later P v := by
  cases strategy with
  | atOnce => exact .of (h v hv)
  | onDemand =>
    rw [Strategy.part] at hv
    split at hv
    · exact .of (h v hv)
    · cases hv
      intro w hw
      rw [now_suspend] at hw
      obtain ⟨u, hu, hnow⟩ := bind_eq_ok_iff.1 hw
      exact ⟨u, h u hu, hnow⟩

theorem Later.agrees (h : Later P v) (h' : Later Q w)
    (hPQ : ∀ u u', P u → Q u' → u.Agrees strategy u') :
    v.Agrees strategy w := by
  refine renamed_closed.value_iff.2 (Comparison.outcomes_returning fun a b ha hb => ?_)
  obtain ⟨u, hu, hua⟩ := h a ha
  obtain ⟨u', hu', hub⟩ := h' b hb
  exact (renamed_closed.now (hPQ u u' hu hu')).of_eq_ok hua hub

end Later

end Value

/-! ## Environments -/

/-- The two environments have values that agree for the names with the given property. -/
def Environment.AgreesOn (strategy : Strategy) (P : String → Prop)
    (ρ ρ' : Environment) : Prop :=
  (renamed (.returning strategy) Eq).Environments (fun a b => a = b ∧ P a) ρ ρ'

namespace Environment

variable {strategy : Strategy} {P : String → Prop} {ρ ρ' : Environment} {x : String}

theorem AgreesOn.refl (P : String → Prop) (ρ : Environment) : AgreesOn strategy P ρ ρ where
  isSome_eq := by
    rintro a _ ⟨rfl, -⟩
    rfl
  unbound _ _ _ _ := True.intro
  value := by
    rintro a _ v w ⟨rfl, -⟩ hv hw
    obtain rfl : v = w := Option.some.inj (hv.symm.trans hw)
    exact Value.Agrees.refl v

/-- A name may be bound to values that agree, or to any values if it is without the property. -/
theorem AgreesOn.cons (h : AgreesOn strategy P ρ ρ') {v w : Value}
    (hv : P x → v.Agrees strategy w) :
    AgreesOn strategy P ((x, v) :: ρ) ((x, w) :: ρ') where
  isSome_eq := by
    rintro a _ ⟨rfl, ha⟩
    by_cases hax : a = x
    · simp [hax]
    · simpa [List.lookup_cons, beq_eq_false_iff_ne.2 hax] using h.isSome_eq a a ⟨rfl, ha⟩
  unbound _ _ _ _ := True.intro
  value := by
    rintro a _ u u' ⟨rfl, ha⟩ hu hu'
    by_cases hax : a = x
    · subst hax
      simp only [List.lookup_cons_self, Option.some.injEq] at hu hu'
      rw [← hu, ← hu']
      exact hv ha
    · simp only [List.lookup_cons, beq_eq_false_iff_ne.2 hax] at hu hu'
      exact h.value a a u u' ⟨rfl, ha⟩ hu hu'

/-- A name without the property may be bound in one of the environments only. -/
theorem AgreesOn.skip (h : AgreesOn strategy P ρ ρ') {w : Value} (hx : ¬ P x) :
    AgreesOn strategy P ρ ((x, w) :: ρ') := by
  have hlookup : ∀ a, P a → List.lookup a ((x, w) :: ρ') = ρ'.lookup a := by
    intro a ha
    have hax : a ≠ x := fun heq => hx (heq ▸ ha)
    rw [List.lookup_cons, beq_eq_false_iff_ne.2 hax]
  refine ⟨?_, fun _ _ _ _ => True.intro, ?_⟩
  · rintro a _ ⟨rfl, ha⟩
    rw [hlookup a ha]
    exact h.isSome_eq a a ⟨rfl, ha⟩
  · rintro a _ u u' ⟨rfl, ha⟩ hu hu'
    rw [hlookup a ha] at hu'
    exact h.value a a u u' ⟨rfl, ha⟩ hu hu'

end Environment

namespace Core

variable {strategy : Strategy} {t : Core} {ρ ρ' : Environment} {v w : Value}

/-- A term is evaluated to values that agree in environments that agree on its names. -/
theorem evaluate_agrees (h : Environment.AgreesOn strategy (t.mentions · = true) ρ ρ')
    {n m : Nat} (hv : t.evaluate strategy n ρ = .ok v) (hw : t.evaluate strategy m ρ' = .ok w) :
    v.Agrees strategy w := by
  have hoes := (renamed_evaluates (fun _ => rfl) (Comparison.fuels_returning n m)).1 h
    (.refl (fun _ => rfl) (fun _ => rfl) fun y hy => ⟨rfl, hy⟩)
  exact hoes.of_eq_ok hv hw

end Core

/-! ## Values for terms -/

/-- The value is forced to what some evaluation of the term is forced to. -/
def Value.StandsFor (strategy : Strategy) (ρ : Environment) (v : Value) (t : Core) : Prop :=
  v.Later fun u => ∃ n, t.evaluate strategy n ρ = .ok u

namespace Value.StandsFor

variable {strategy : Strategy} {t : Core} {ρ ρ' : Environment} {v w : Value}

theorem of_evaluate {n : Nat} (h : t.evaluate strategy n ρ = .ok v) :
    v.StandsFor strategy ρ t := Later.of ⟨n, h⟩

theorem of_part {n : Nat} (h : strategy.part (Core.evaluate strategy n ρ) t = .ok v) :
    v.StandsFor strategy ρ t :=
  Later.of_part (fun _ hu => ⟨n, hu⟩) h

/-- Values that stand for a term agree, also if the names that it does not mention have other
values. -/
theorem agrees (hv : v.StandsFor strategy ρ t) (hw : w.StandsFor strategy ρ' t)
    (h : Environment.AgreesOn strategy (t.mentions · = true) ρ ρ') : v.Agrees strategy w := by
  refine Later.agrees hv hw ?_
  rintro u u' ⟨n, hu⟩ ⟨m, hu'⟩
  exact Core.evaluate_agrees h hu hu'

/-- So do lists of values that stand for the same terms. -/
theorem agrees_all {args args' : List Value} {ts : List Core}
    (h : List.Forall₂ (StandsFor strategy ρ) args ts)
    (h' : List.Forall₂ (StandsFor strategy ρ) args' ts) :
    List.Forall₂ (Agrees strategy) args args' := by
  induction h generalizing args' with
  | nil =>
    cases h'
    exact .nil
  | cons ha _ ih =>
    cases h' with
    | cons ha' hrest' => exact .cons (ha.agrees ha' (.refl _ ρ)) (ih hrest')

/-! What a value for a constructor is forced to. -/

theorem now_const {c : Const} (h : v.StandsFor strategy ρ (.const c)) (hw : v.now = .ok w) :
    w = .const c := by
  obtain ⟨u, ⟨n, hu⟩, hnow⟩ := h w hw
  cases n with
  | zero => cases hu
  | succ n =>
    cases hu
    cases hnow
    rfl

theorem now_lam {x : String} (h : v.StandsFor strategy ρ (.lam x t)) (hw : v.now = .ok w) :
    w = .lam x (.captured ρ x t) := by
  obtain ⟨u, ⟨n, hu⟩, hnow⟩ := h w hw
  cases n with
  | zero => cases hu
  | succ n =>
    cases hu
    cases hnow
    rfl

theorem now_add1 (h : v.StandsFor strategy ρ (.add1 t)) (hw : v.now = .ok w) :
    ∃ a, w = .add1 a ∧ a.StandsFor strategy ρ t := by
  obtain ⟨u, ⟨n, hu⟩, hnow⟩ := h w hw
  cases n with
  | zero => cases hu
  | succ n =>
    obtain ⟨a, ha, hua⟩ := bind_eq_ok_iff.1 hu
    cases hua
    cases hnow
    exact ⟨a, rfl, of_part ha⟩

theorem now_delayedPair {o : Core.Binary} {c : Value.Binary} {t' : Core}
    (hoc : ∀ n, (Core.binary o t t').evaluate strategy (n + 1) ρ = (do
      let a ← strategy.part (Core.evaluate strategy n ρ) t
      let b ← strategy.part (Core.evaluate strategy n ρ) t'
      return .binary c a b))
    (h : v.StandsFor strategy ρ (.binary o t t')) (hw : v.now = .ok w) :
    ∃ a b, w = .binary c a b ∧ a.StandsFor strategy ρ t ∧ b.StandsFor strategy ρ t' := by
  obtain ⟨u, ⟨n, hu⟩, hnow⟩ := h w hw
  cases n with
  | zero => cases hu
  | succ n =>
    rw [hoc] at hu
    obtain ⟨a, ha, hu⟩ := bind_eq_ok_iff.1 hu
    obtain ⟨b, hb, hu⟩ := bind_eq_ok_iff.1 hu
    cases hu
    cases hnow
    exact ⟨a, b, rfl, of_part ha, of_part hb⟩

theorem now_listCons {t' : Core} (h : v.StandsFor strategy ρ (.binary .listCons t t'))
    (hw : v.now = .ok w) :
    ∃ a b, w = .listCons a b ∧ a.StandsFor strategy ρ t ∧ b.StandsFor strategy ρ t' :=
  h.now_delayedPair (fun _ => rfl) hw

theorem now_vecCons {t' : Core} (h : v.StandsFor strategy ρ (.binary .vecCons t t'))
    (hw : v.now = .ok w) :
    ∃ a b, w = .vecCons a b ∧ a.StandsFor strategy ρ t ∧ b.StandsFor strategy ρ t' :=
  h.now_delayedPair (fun _ => rfl) hw

end Value.StandsFor

/-! ## Applying to several arguments -/

namespace Value

variable {strategy : Strategy}

/-- The function, applied to the arguments one after the other, gives the value. -/
def Gives (strategy : Strategy) : (function : Value) → (arguments : List Value) → Value → Prop
  | f, [], v => f = v
  | f, a :: args, v => ∃ n g, f.apply strategy n a = .ok g ∧ Gives strategy g args v

namespace Gives

variable {f f' a v w : Value}

theorem append {args args' : List Value} {g : Value} (h : f.Gives strategy args g)
    (h' : g.Gives strategy args' v) :
    f.Gives strategy (args ++ args') v := by
  induction args generalizing f with
  | nil =>
    cases h
    exact h'
  | cons a args ih =>
    obtain ⟨n, g', hg', hrest⟩ := h
    exact ⟨n, g', hg', ih hrest⟩

/-- Functions that agree give values that agree for arguments that agree. -/
theorem agrees {args args' : List Value} (hargs : List.Forall₂ (Agrees strategy) args args')
    (hf : f.Agrees strategy f') (h : f.Gives strategy args v) (h' : f'.Gives strategy args' w) :
    v.Agrees strategy w := by
  induction hargs generalizing f f' with
  | nil =>
    cases h
    cases h'
    exact hf
  | cons ha _ ih =>
    obtain ⟨n, g, hg, hrest⟩ := h
    obtain ⟨m, g', hg', hrest'⟩ := h'
    exact ih (hf.apply ha hg hg') hrest hrest'

/-- A value for a function goes on with the value of the body. -/
theorem of_lam {ρ : Environment} {x : String} {body : Core} {args : List Value}
    (hf : f.StandsFor strategy ρ (.lam x body)) (h : f.Gives strategy (a :: args) v) :
    ∃ n g, body.evaluate strategy n ((x, a) :: ρ) = .ok g ∧ g.Gives strategy args v := by
  obtain ⟨n, g, hg, hrest⟩ := h
  cases n with
  | zero => cases hg
  | succ n =>
    rw [Value.apply] at hg
    obtain ⟨w, hw, hg⟩ := bind_eq_ok_iff.1 hg
    obtain rfl := hf.now_lam hw
    cases n with
    | zero => cases hg
    | succ n => exact ⟨n, g, hg, hrest⟩

end Gives

end Value

end PieChecker
