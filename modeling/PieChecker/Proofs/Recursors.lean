import Mathlib.Data.List.Induction
import PieChecker.Proofs.ReturningRuns

set_option autoImplicit false

/-!
# Recursion over canonical targets

On a numeral, a list or a vector whose constructors are all there, every recursor computes a
right fold: the step is applied, for each entry, to what the recursor passes for the entry and
to the recursion over the entries after it. The entries of the numeral `n` are the numbers below
it, from `n - 1` down to `0`.

`Folds` says this of values, and a recursor is shown to fold from what it does with one
constructor. Folds with the same base agree if their steps do, entry by entry, so recursors can
be compared by comparing what they do in one step. What a recursor does not compute with, the
type of the result or the motive, has no influence on it.
-/

namespace PieChecker

open Value

namespace Core

/-! ## Folds as terms -/

/-- The term applied to the arguments, one after the other. -/
def applied (function : Core) (arguments : List Core) : Core := arguments.foldl apply function

/-- The right fold of the entries: the step, applied to what is passed for the first entry and
to the fold of the others. -/
def fold {α : Type} (passes : α → List α → List Core) (step base : Core) : List α → Core
  | [] => base
  | a :: as => apply (step.applied (passes a as)) (fold passes step base as)

/-- The list of the entries. -/
def listOf (entries : List Core) : Core := entries.foldr (.binary .listCons) (.const .nil)

/-- The vector of the entries. -/
def vecOf (entries : List Core) : Core := entries.foldr (.binary .vecCons) (.const .vecnil)

/-- The numbers below a number, the greatest one first. -/
def countdown (n : Nat) : List Nat := (List.range n).reverse

theorem countdown_succ (n : Nat) : countdown (n + 1) = n :: countdown n := by
  rw [countdown, List.range_succ, List.reverse_append]
  rfl

/-- A recursion over a number passes the number that it has come to. -/
def natPasses (k : Nat) (_ : List Nat) : List Core := [numeral k]

/-- A recursion over a list passes the entry and the entries after it. -/
def listPasses (e : Core) (es : List Core) : List Core := [e, listOf es]

/-- A recursion over a vector passes the number of entries after the entry as well. -/
def vecPasses (e : Core) (es : List Core) : List Core := [numeral es.length, e, vecOf es]

end Core

/-! ## Folds as values -/

section Folds

variable {α : Type} {strategy : Strategy} {ρ : Environment} {step step' base : Core}
  {v w : Value}

/-- The value is what the step gives for the terms and a recursion with the given result. -/
def StepGives (strategy : Strategy) (ρ : Environment) (step : Core) (passed : List Core)
    (recursion v : Value) : Prop :=
  ∃ (f : Value) (args : List Value), f.StandsFor strategy ρ step ∧
    List.Forall₂ (StandsFor strategy ρ) args passed ∧
    f.Gives strategy (args ++ [recursion]) v

/-- The value is a right fold of the entries. -/
def Folds (strategy : Strategy) (ρ : Environment) (passes : α → List α → List Core)
    (step base : Core) :
    List α → Value → Prop
  | [], v => v.StandsFor strategy ρ base
  | a :: as, v =>
    ∃ r, r.Later (Folds strategy ρ passes step base as) ∧
      StepGives strategy ρ step (passes a as) r v

/-- Steps agree if they give values that agree after recursions that agree, whatever the
entry. -/
def StepsAgree (strategy : Strategy) (ρ : Environment) (passes passes' : α → List α → List Core)
    (step step' : Core) : Prop :=
  ∀ a as r r' v w, r.Agrees strategy r' → StepGives strategy ρ step (passes a as) r v →
    StepGives strategy ρ step' (passes' a as) r' w → v.Agrees strategy w

variable {passes passes' : α → List α → List Core}

theorem StepsAgree.refl (passes : α → List α → List Core) (step : Core) :
    StepsAgree strategy ρ passes passes step step := by
  rintro a as r r' v w hr ⟨f, args, hf, hargs, hv⟩ ⟨f', args', hf', hargs', hw⟩
  refine Gives.agrees ?_ (hf.agrees hf' (.refl _ ρ)) hv hw
  exact List.rel_append (StandsFor.agrees_all hargs hargs') (.cons hr .nil)

/-- Folds from the same base agree if their steps do. -/
theorem Folds.agrees {as : List α} (hv : Folds strategy ρ passes step base as v)
    (h : StepsAgree strategy ρ passes passes' step step')
    (hw : Folds strategy ρ passes' step' base as w) :
    v.Agrees strategy w := by
  induction as generalizing v w with
  | nil => exact StandsFor.agrees hv hw (.refl _ ρ)
  | cons a as ih =>
    obtain ⟨r, hr, hv⟩ := hv
    obtain ⟨r', hr', hw⟩ := hw
    exact h a as r r' v w (hr.agrees hr' fun _ _ => ih) hv hw

end Folds

/-! ## The unfolded recursion -/

namespace Core

variable {α : Type} {strategy : Strategy} {ρ : Environment} {n : Nat} {v : Value}

theorem evaluate_apply {t u : Core} (h : (Core.apply t u).evaluate strategy n ρ = .ok v) :
    ∃ m f a, t.evaluate strategy m ρ = .ok f ∧
      strategy.part (Core.evaluate strategy m ρ) u = .ok a ∧
      f.apply strategy m a = .ok v := by
  cases n with
  | zero => cases h
  | succ m =>
    obtain ⟨f, hf, h⟩ := bind_eq_ok_iff.1 h
    obtain ⟨a, ha, h⟩ := bind_eq_ok_iff.1 h
    exact ⟨m, f, a, hf, ha, h⟩

theorem evaluate_applied {t : Core} {ts : List Core}
    (h : (t.applied ts).evaluate strategy n ρ = .ok v) :
    ∃ (f : Value) (args : List Value), f.StandsFor strategy ρ t ∧
      List.Forall₂ (StandsFor strategy ρ) args ts ∧
      f.Gives strategy args v := by
  -- From the last argument on: what is applied to it has been evaluated, and so is a value that
  -- `Gives` can go on from.
  induction ts using List.reverseRecOn generalizing n v with
  | nil => exact ⟨v, [], .of_evaluate h, .nil, rfl⟩
  | append_singleton ts u ih =>
    rw [applied, List.foldl_append] at h
    obtain ⟨m, g, a, hg, ha, hv⟩ := evaluate_apply h
    obtain ⟨f, args, hf, hargs, hgives⟩ := ih hg
    exact ⟨f, args ++ [a], hf, List.rel_append hargs (.cons (.of_part ha) .nil),
      hgives.append ⟨m, v, hv, rfl⟩⟩

/-- The term of a fold is evaluated to a fold. -/
theorem folds_of_evaluate_fold {passes : α → List α → List Core} {step base : Core}
    {as : List α} (h : (fold passes step base as).evaluate strategy n ρ = .ok v) :
    Folds strategy ρ passes step base as v := by
  induction as generalizing n v with
  | nil => exact .of_evaluate h
  | cons a as ih =>
    obtain ⟨m, g, r, hg, hr, hv⟩ := evaluate_apply h
    obtain ⟨f, args, hf, hargs, hgives⟩ := evaluate_applied hg
    exact ⟨r, .of_part (fun u hu => ih hu) hr, f, args, hf, hargs,
      hgives.append ⟨m, v, hv, rfl⟩⟩

end Core

/-! ## The recursors -/

namespace Value

variable {strategy : Strategy} {ρ : Environment} {step base : Core} {n m fuel : Nat}
  {ap : Application} {target b s v : Value}

/-- Induction over a numeral is recursion, whatever the motive and the type of the result
are. -/
theorem indNat_eq_recNat (ht : target.StandsFor strategy ρ (.numeral n))
    (motive result b s : Value) (fuel : Nat) :
    indNat ap motive b s fuel target = recNat ap result b s fuel target := by
  induction fuel generalizing n target with
  | zero => rfl
  | succ fuel ih =>
    rw [indNat, recNat]
    refine bind_congr_of_ok fun w hw => ?_
    cases n with
    | zero =>
      obtain rfl := ht.now_const hw
      rfl
    | succ n =>
      obtain ⟨p, rfl, hp⟩ := ht.now_add1 hw
      simp only [ih hp]

/-- Induction over a list is recursion, whatever the motive and the type of the result are. -/
theorem indList_eq_recList {es : List Core} (ht : target.StandsFor strategy ρ (.listOf es))
    (motive result b s : Value) (fuel : Nat) :
    indList ap motive b s fuel target = recList ap result b s fuel target := by
  induction fuel generalizing es target with
  | zero => rfl
  | succ fuel ih =>
    rw [indList, recList]
    refine bind_congr_of_ok fun w hw => ?_
    cases es with
    | nil =>
      obtain rfl := ht.now_const hw
      rfl
    | cons e es =>
      obtain ⟨h, t, rfl, -, ht⟩ := ht.now_listCons hw
      simp only [ih ht]

section Canonical

variable (hb : b.StandsFor strategy ρ base) (hs : s.StandsFor strategy ρ step)
include hb hs

/-- Each call takes one constructor off its target and one unit of fuel; the induction is on the
fuel. -/
theorem folds_of_recNat {result : Value} (ht : target.StandsFor strategy ρ (.numeral n))
    (h : recNat ⟨Value.apply strategy m, Closure.run strategy m⟩ result b s fuel target =
      .ok v) :
    Folds strategy ρ Core.natPasses step base (Core.countdown n) v := by
  induction fuel generalizing n target v with
  | zero => cases h
  | succ fuel ih =>
    obtain ⟨w, hw, h⟩ := bind_eq_ok_iff.1 h
    cases n with
    | zero =>
      obtain rfl := ht.now_const hw
      cases h
      exact hb
    | succ n =>
      obtain ⟨p, rfl, hp⟩ := ht.now_add1 hw
      obtain ⟨r, hr, h⟩ := bind_eq_ok_iff.1 h
      obtain ⟨f, hf, h⟩ := bind_eq_ok_iff.1 h
      rw [Core.countdown_succ]
      exact ⟨r, .of (ih hp hr), s, [p], hs, .cons hp .nil, m, f, hf, m, v, h, rfl⟩

theorem folds_of_iterNat {result : Value} (ht : target.StandsFor strategy ρ (.numeral n))
    (h : iterNat ⟨Value.apply strategy m, Closure.run strategy m⟩ result b s fuel target =
      .ok v) :
    Folds strategy ρ (fun _ _ => []) step base (Core.countdown n) v := by
  induction fuel generalizing n target v with
  | zero => cases h
  | succ fuel ih =>
    obtain ⟨w, hw, h⟩ := bind_eq_ok_iff.1 h
    cases n with
    | zero =>
      obtain rfl := ht.now_const hw
      cases h
      exact hb
    | succ n =>
      obtain ⟨p, rfl, hp⟩ := ht.now_add1 hw
      obtain ⟨r, hr, h⟩ := bind_eq_ok_iff.1 h
      rw [Core.countdown_succ]
      exact ⟨r, .of (ih hp hr), s, [], hs, .nil, m, v, h, rfl⟩

theorem folds_of_recList {result : Value} {es : List Core}
    (ht : target.StandsFor strategy ρ (.listOf es))
    (h : recList ⟨Value.apply strategy m, Closure.run strategy m⟩ result b s fuel target =
      .ok v) :
    Folds strategy ρ Core.listPasses step base es v := by
  induction fuel generalizing es target v with
  | zero => cases h
  | succ fuel ih =>
    obtain ⟨w, hw, h⟩ := bind_eq_ok_iff.1 h
    cases es with
    | nil =>
      obtain rfl := ht.now_const hw
      cases h
      exact hb
    | cons e es =>
      obtain ⟨head, tail, rfl, hhead, htail⟩ := ht.now_listCons hw
      obtain ⟨r, hr, h⟩ := bind_eq_ok_iff.1 h
      obtain ⟨f, hf, h⟩ := bind_eq_ok_iff.1 h
      obtain ⟨g, hg, h⟩ := bind_eq_ok_iff.1 h
      refine ⟨r, .of (ih htail hr), s, [head, tail], hs, .cons hhead (.cons htail .nil), ?_⟩
      exact ⟨m, f, hf, m, g, hg, m, v, h, rfl⟩

theorem folds_of_indVec {motive length : Value} {es : List Core}
    (hl : length.StandsFor strategy ρ (.numeral es.length))
    (ht : target.StandsFor strategy ρ (.vecOf es))
    (h : indVec ⟨Value.apply strategy m, Closure.run strategy m⟩ motive b s fuel length target =
      .ok v) :
    Folds strategy ρ Core.vecPasses step base es v := by
  induction fuel generalizing es length target v with
  | zero => cases h
  | succ fuel ih =>
    obtain ⟨l, hl', h⟩ := bind_eq_ok_iff.1 h
    obtain ⟨w, hw, h⟩ := bind_eq_ok_iff.1 h
    cases es with
    | nil =>
      obtain rfl := ht.now_const hw
      cases h
      exact hb
    | cons e es =>
      obtain ⟨k, rfl, hk⟩ := hl.now_add1 hl'
      obtain ⟨head, tail, rfl, hhead, htail⟩ := ht.now_vecCons hw
      obtain ⟨r, hr, h⟩ := bind_eq_ok_iff.1 h
      obtain ⟨f, hf, h⟩ := bind_eq_ok_iff.1 h
      obtain ⟨g, hg, h⟩ := bind_eq_ok_iff.1 h
      obtain ⟨i, hi, h⟩ := bind_eq_ok_iff.1 h
      refine ⟨r, .of (ih hk htail hr), s, [k, head, tail], hs,
        .cons hk (.cons hhead (.cons htail .nil)), ?_⟩
      exact ⟨m, f, hf, m, g, hg, m, i, hi, m, v, h, rfl⟩

end Canonical

end Value

/-! ## Steps that ignore what they are passed -/

section Ignoring

open Environment (AgreesOn)

variable {strategy : Strategy} {ρ : Environment} {step body base : Core} {x y z : String}

/-- A step of iteration does what a step of recursion does that ignores the number. -/
theorem stepsAgree_iteration (hx : step.mentions x = false) :
    StepsAgree strategy ρ (fun _ _ => []) Core.natPasses step (.lam x step) := by
  rintro k ks r r' v w hr ⟨f, args, hf, hargs, hv⟩ ⟨f', args', hf', hargs', hw⟩
  obtain _ | _ := hargs
  obtain _ | ⟨hp, _ | _⟩ := hargs'
  obtain ⟨n, g, hg, hw⟩ := Gives.of_lam hf' hw
  refine Gives.agrees (.cons hr .nil) (hf.agrees (.of_evaluate hg) ?_) hv hw
  exact (AgreesOn.refl _ ρ).skip (ne_true_of_eq_false hx)

/-- A step of recursion over a list does what a step of induction over a vector does that
ignores the length, if neither uses the tail. -/
theorem stepsAgree_vector (hx : body.mentions x = false) (hz : body.mentions z = false) :
    StepsAgree strategy ρ Core.listPasses Core.vecPasses (.lam y (.lam z body))
      (.lam x (.lam y (.lam z body))) := by
  rintro e es r r' v w hr ⟨f, args, hf, hargs, hv⟩ ⟨f', args', hf', hargs', hw⟩
  obtain _ | ⟨hhead, _ | ⟨-, _ | _⟩⟩ := hargs
  obtain _ | ⟨-, _ | ⟨hhead', _ | ⟨-, _ | _⟩⟩⟩ := hargs'
  obtain ⟨n, g, hg, hv⟩ := Gives.of_lam hf hv
  obtain ⟨n, g, hg, hv⟩ := Gives.of_lam (.of_evaluate hg) hv
  obtain ⟨m, g', hg', hw⟩ := Gives.of_lam hf' hw
  obtain ⟨m, g', hg', hw⟩ := Gives.of_lam (.of_evaluate hg') hw
  obtain ⟨m, g', hg', hw⟩ := Gives.of_lam (.of_evaluate hg') hw
  refine Gives.agrees (.cons hr .nil) (Core.evaluate_agrees ?_ hg hg') hv hw
  -- One tail is a list and the other one a vector, but the body looks up neither.
  refine AgreesOn.cons (.cons ?_ fun _ => hhead.agrees hhead' (.refl _ ρ)) fun h =>
    absurd h (ne_true_of_eq_false hz)
  exact (AgreesOn.refl _ ρ).skip (ne_true_of_eq_false hx)

/-- Nothing is delayed for a name. -/
theorem eq_of_part_var {n : Nat} {v a : Value} (hx : ρ.lookup x = some v)
    (ha : strategy.part (Core.evaluate strategy n ρ) (.var x) = .ok a) : v = a := by
  have heval : Core.evaluate strategy n ρ (.var x) = .ok a := by
    cases strategy with
    | onDemand => exact ha
    | atOnce => exact ha
  cases n with
  | zero => cases heval
  | succ n =>
    simp only [Core.evaluate, hx] at heval
    exact Except.ok.inj heval

/-- A step of `which-Nat`, which is passed a number and no recursion, does what the other step
does with the number and any recursion. -/
def DistinctionAgrees (strategy : Strategy) (ρ : Environment) (step step' : Core) : Prop :=
  ∀ (k : Nat) (f p r v w : Value), f.StandsFor strategy ρ step →
    p.StandsFor strategy ρ (.numeral k) →
    f.Gives strategy [p] v → StepGives strategy ρ step' [.numeral k] r w → v.Agrees strategy w

theorem distinctionAgrees_lam (hy : body.mentions y = false) :
    DistinctionAgrees strategy ρ (.lam x body) (.lam x (.lam y body)) := by
  rintro k f p r v w hf hp hv ⟨f', args', hf', hargs', hw⟩
  obtain _ | ⟨hp', _ | _⟩ := hargs'
  obtain ⟨n, _, hg, rfl⟩ := Gives.of_lam hf hv
  obtain ⟨m, g', hg', hw⟩ := Gives.of_lam hf' hw
  obtain ⟨m, _, hg', rfl⟩ := Gives.of_lam (.of_evaluate hg') hw
  refine Core.evaluate_agrees (.skip (.cons (.refl _ ρ) ?_) (ne_true_of_eq_false hy)) hg hg'
  exact fun _ => hp.agrees hp' (.refl _ ρ)

theorem distinctionAgrees_apply (hxy : x ≠ y) (hx : step.mentions x = false)
    (hy : step.mentions y = false) :
    DistinctionAgrees strategy ρ step (.lam x (.lam y (.apply step (.var x)))) := by
  rintro k f p r v w hf hp ⟨n, _, hv, rfl⟩ ⟨f', args', hf', hargs', hw⟩
  obtain _ | ⟨hp', _ | _⟩ := hargs'
  obtain ⟨m, g', hg', hw⟩ := Gives.of_lam hf' hw
  obtain ⟨m, _, hg', rfl⟩ := Gives.of_lam (.of_evaluate hg') hw
  obtain ⟨m, g, a, hg, ha, hw⟩ := Core.evaluate_apply hg'
  have hfg : f.Agrees strategy g := by
    refine hf.agrees (.of_evaluate hg) (.skip (.skip (.refl _ ρ) ?_) (ne_true_of_eq_false hy))
    exact ne_true_of_eq_false hx
  obtain rfl :=
    eq_of_part_var (by rw [List.lookup_cons, beq_eq_false_iff_ne.2 hxy, List.lookup_cons_self])
      ha
  exact hfg.apply (hp.agrees hp' (.refl _ ρ)) hv hw

/-- On a numeral, `which-Nat` agrees with the recursion whose last step agrees with its step. -/
theorem DistinctionAgrees.agrees {step' : Core} (h : DistinctionAgrees strategy ρ step step')
    {n m : Nat} {target result b s v w : Value} (hb : b.StandsFor strategy ρ base)
    (hs : s.StandsFor strategy ρ step) (ht : target.StandsFor strategy ρ (.numeral n))
    (hv : target.whichNat ⟨Value.apply strategy m, Closure.run strategy m⟩ result b s = .ok v)
    (hw : Folds strategy ρ Core.natPasses step' base (Core.countdown n) w) :
    v.Agrees strategy w := by
  obtain ⟨t, hnow, hv⟩ := bind_eq_ok_iff.1 hv
  cases n with
  | zero =>
    obtain rfl := ht.now_const hnow
    cases hv
    exact StandsFor.agrees hb hw (.refl _ ρ)
  | succ n =>
    obtain ⟨p, rfl, hp⟩ := ht.now_add1 hnow
    rw [Core.countdown_succ] at hw
    obtain ⟨r, -, hw⟩ := hw
    exact h n s p r v w hs hp ⟨m, v, hv, rfl⟩ hw

end Ignoring

/-! ## Recursors with the same normal forms -/

namespace Core

/-- The normal form of a term at a type: its value, read back. The two numbers are the fuel for
the two. -/
def normalForm (strategy : Strategy) (n m : Nat) (ρ : Environment) (names : List String)
    (T : Value) (t : Core) :
    Outcome Core := do
  T.readBack strategy m names (← t.evaluate strategy n ρ)

/-- The terms have the same normal form at every type where both have one, however they are
found. -/
def SameNormalForms (strategy : Strategy) (ρ : Environment) (t u : Core) : Prop :=
  ∀ (n m k l : Nat) (names : List String) (T : Value) (a b : Core),
    t.normalForm strategy n m ρ names T = .ok a → u.normalForm strategy k l ρ names T =
      .ok b → a = b

/-- The terms that recur over a numeral. -/
inductive NatRecursion (n : Nat) (base step : Core) : Core → Prop where
  | recNat (result : Core) : NatRecursion n base step
      (.quaternary .recNat (numeral n) result base step)
  | indNat (motive : Core) : NatRecursion n base step
      (.quaternary .indNat (numeral n) motive base step)
  | unfolded : NatRecursion n base step (fold natPasses step base (countdown n))

/-- The terms that recur over a list. -/
inductive ListRecursion (es : List Core) (base step : Core) : Core → Prop where
  | recList (result : Core) : ListRecursion es base step
      (.quaternary .recList (listOf es) result base step)
  | indList (motive : Core) : ListRecursion es base step
      (.quaternary .indList (listOf es) motive base step)
  | unfolded : ListRecursion es base step (fold listPasses step base es)

/-- The terms that recur over a vector with its length. -/
inductive VecRecursion (es : List Core) (base step : Core) : Core → Prop where
  | indVec (motive : Core) : VecRecursion es base step
      (.indVec (numeral es.length) (vecOf es) motive base step)
  | unfolded : VecRecursion es base step (fold vecPasses step base es)

variable {strategy : Strategy} {ρ : Environment} {n : Nat} {es : List Core}
  {base step t u : Core} {v : Value}

theorem SameNormalForms.of_agrees
    (h : ∀ n k v w, t.evaluate strategy n ρ = .ok v → u.evaluate strategy k ρ = .ok w →
      v.Agrees strategy w) : SameNormalForms strategy ρ t u := by
  intro n m k l names T a b ha hb
  obtain ⟨v, hv, ha⟩ := bind_eq_ok_iff.1 ha
  obtain ⟨w, hw, hb⟩ := bind_eq_ok_iff.1 hb
  exact (h n k v w hv hw).readBack_eq ha hb

/-- The four operands of an eliminator are evaluated before anything else. -/
theorem operands_of_evaluate {finish : Value → Value → Value → Value → Outcome Value}
    {m : Nat} {r : Core} (h : (do
      let a ← t.evaluate strategy m ρ
      let b ← r.evaluate strategy m ρ
      let c ← base.evaluate strategy m ρ
      let d ← step.evaluate strategy m ρ
      finish a b c d) = .ok v) :
    ∃ a b c d : Value, a.StandsFor strategy ρ t ∧ c.StandsFor strategy ρ base ∧
      d.StandsFor strategy ρ step ∧
      finish a b c d = .ok v := by
  obtain ⟨a, b, c, d, ha, -, hc, hd, h⟩ := quaternary_operands_of_eq_ok h
  exact ⟨a, b, c, d, .of_evaluate ha, .of_evaluate hc, .of_evaluate hd, h⟩

theorem NatRecursion.folds (ht : NatRecursion n base step t) {m : Nat}
    (h : t.evaluate strategy m ρ = .ok v) :
    Folds strategy ρ natPasses step base (countdown n) v := by
  cases m with
  | zero => cases h
  | succ m =>
    cases ht with
    | recNat result =>
      obtain ⟨a, b, c, d, ha, hc, hd, h⟩ := operands_of_evaluate h
      exact folds_of_recNat hc hd ha h
    | indNat motive =>
      obtain ⟨a, b, c, d, ha, hc, hd, h⟩ := operands_of_evaluate h
      exact folds_of_recNat hc hd ha ((indNat_eq_recNat ha b b c d m).symm.trans h)
    | unfolded => exact folds_of_evaluate_fold h

theorem folds_of_evaluate_iterNat {m : Nat} {result : Core}
    (h : (Core.quaternary .iterNat (numeral n) result base step).evaluate strategy m ρ =
      .ok v) :
    Folds strategy ρ (fun _ _ => []) step base (countdown n) v := by
  cases m with
  | zero => cases h
  | succ m =>
    obtain ⟨a, b, c, d, ha, hc, hd, h⟩ := operands_of_evaluate h
    exact folds_of_iterNat hc hd ha h

theorem agrees_of_evaluate_whichNat {step' : Core}
    (hstep : DistinctionAgrees strategy ρ step step') {m : Nat} {result : Core} {w : Value}
    (h : (Core.quaternary .whichNat (numeral n) result base step).evaluate strategy m ρ = .ok v)
    (hw : Folds strategy ρ natPasses step' base (countdown n) w) : v.Agrees strategy w := by
  cases m with
  | zero => cases h
  | succ m =>
    obtain ⟨a, b, c, d, ha, hc, hd, h⟩ := operands_of_evaluate h
    exact hstep.agrees hc hd ha h hw

theorem ListRecursion.folds (ht : ListRecursion es base step t) {m : Nat}
    (h : t.evaluate strategy m ρ = .ok v) :
    Folds strategy ρ listPasses step base es v := by
  cases m with
  | zero => cases h
  | succ m =>
    cases ht with
    | recList result =>
      obtain ⟨a, b, c, d, ha, hc, hd, h⟩ := operands_of_evaluate h
      exact folds_of_recList hc hd ha h
    | indList motive =>
      obtain ⟨a, b, c, d, ha, hc, hd, h⟩ := operands_of_evaluate h
      exact folds_of_recList hc hd ha ((indList_eq_recList ha b b c d m).symm.trans h)
    | unfolded => exact folds_of_evaluate_fold h

theorem VecRecursion.folds (ht : VecRecursion es base step t) {m : Nat}
    (h : t.evaluate strategy m ρ = .ok v) :
    Folds strategy ρ vecPasses step base es v := by
  cases m with
  | zero => cases h
  | succ m =>
    cases ht with
    | indVec motive =>
      obtain ⟨a, ha, h⟩ := bind_eq_ok_iff.1 h
      obtain ⟨b, c, d, e, hb, hd, he, h⟩ := operands_of_evaluate h
      exact folds_of_indVec hd he hb (.of_evaluate ha) h
    | unfolded => exact folds_of_evaluate_fold h

/-- On canonical targets the recursors compute the same right fold. All recursions over a
numeral with the same base and step have the same normal forms, and so do all over a list and
all over a vector; `iter-Nat` is a recursion whose step ignores the number, `which-Nat` one
whose step ignores the recursion, and a recursion over a vector whose step ignores the length
and the tail is a recursion over the list of its entries. -/
theorem recursors_agree (strategy : Strategy) (ρ : Environment) (base : Core) :
    (∀ n step t u, NatRecursion n base step t → NatRecursion n base step u →
      SameNormalForms strategy ρ t u) ∧
    (∀ n x step result t, step.mentions x = false → NatRecursion n base (.lam x step) t →
      SameNormalForms strategy ρ (.quaternary .iterNat (numeral n) result base step) t) ∧
    (∀ n x y body result t, body.mentions y = false →
      NatRecursion n base (.lam x (.lam y body)) t →
      SameNormalForms strategy ρ
        (.quaternary .whichNat (numeral n) result base (.lam x body)) t) ∧
    (∀ n x y step result t, x ≠ y → step.mentions x = false → step.mentions y = false →
      NatRecursion n base (.lam x (.lam y (.apply step (.var x)))) t →
      SameNormalForms strategy ρ (.quaternary .whichNat (numeral n) result base step) t) ∧
    (∀ es step t u, ListRecursion es base step t → ListRecursion es base step u →
      SameNormalForms strategy ρ t u) ∧
    (∀ es step t u, VecRecursion es base step t → VecRecursion es base step u →
      SameNormalForms strategy ρ t u) ∧
    (∀ es k e rest body t u, body.mentions k = false → body.mentions rest = false →
      ListRecursion es base (.lam e (.lam rest body)) t →
      VecRecursion es base (.lam k (.lam e (.lam rest body))) u →
      SameNormalForms strategy ρ t u) := by
  refine ⟨?_, ?_, ?_, ?_, ?_, ?_, ?_⟩
  · intro n step t u ht hu
    exact .of_agrees fun _ _ _ _ hv hw => (ht.folds hv).agrees (.refl _ step) (hu.folds hw)
  · intro n x step result t hx ht
    refine .of_agrees fun _ _ _ _ hv hw => ?_
    exact (folds_of_evaluate_iterNat hv).agrees (stepsAgree_iteration hx) (ht.folds hw)
  · intro n x y body result t hy ht
    refine .of_agrees fun _ _ _ _ hv hw => ?_
    exact agrees_of_evaluate_whichNat (distinctionAgrees_lam hy) hv (ht.folds hw)
  · intro n x y step result t hxy hx hy ht
    refine .of_agrees fun _ _ _ _ hv hw => ?_
    exact agrees_of_evaluate_whichNat (distinctionAgrees_apply hxy hx hy) hv (ht.folds hw)
  · intro es step t u ht hu
    exact .of_agrees fun _ _ _ _ hv hw => (ht.folds hv).agrees (.refl _ step) (hu.folds hw)
  · intro es step t u ht hu
    exact .of_agrees fun _ _ _ _ hv hw => (ht.folds hv).agrees (.refl _ step) (hu.folds hw)
  · intro es k e rest body t u hk hrest ht hu
    exact .of_agrees fun _ _ _ _ hv hw =>
      (ht.folds hv).agrees (stepsAgree_vector hk hrest) (hu.folds hw)

/-- The function that puts the value of a name in front of a list. -/
def pushing (x : String) : Core := .lam "ih" (.binary .listCons (.var x) (.var "ih"))

/-- Recursions that collect what their steps are passed, from the empty list. -/
theorem recursors_agree_pushing :
    -- Over the numeral `2`, the step is passed `1` and `0`.
    SameNormalForms .onDemand []
      (.quaternary .recNat (numeral 2) (.unary .list .nat) (.const .nil)
        (.lam "k" (pushing "k")))
      (.quaternary .indNat (numeral 2) (.lam "n" (.unary .list .nat)) (.const .nil)
        (.lam "k" (pushing "k"))) ∧
    (Core.quaternary .recNat (numeral 2) (.unary .list .nat) (.const .nil)
      (.lam "k" (pushing "k"))).normalForm .onDemand 20 20 [] [] (.list .nat) =
        .ok (listOf [numeral 1, numeral 0]) ∧
    -- `iter-Nat` passes no number, and `which-Nat` nothing else.
    SameNormalForms .onDemand [("x", .zero)]
      (.quaternary .iterNat (numeral 2) (.unary .list .nat) (.const .nil) (pushing "x"))
      (.quaternary .recNat (numeral 2) (.unary .list .nat) (.const .nil)
        (.lam "k" (pushing "x"))) ∧
    SameNormalForms .onDemand []
      (.quaternary .whichNat (numeral 2) (.unary .list .nat) (.const .nil)
        (.lam "k" (.binary .listCons (.var "k") (.const .nil))))
      (.quaternary .recNat (numeral 2) (.unary .list .nat) (.const .nil)
        (.lam "k" (.lam "ih" (.binary .listCons (.var "k") (.const .nil))))) ∧
    SameNormalForms .onDemand [("f", .lam "k" (.constant .zero))]
      (.quaternary .whichNat (numeral 2) .nat .zero (.var "f"))
      (.quaternary .recNat (numeral 2) .nat .zero
        (.lam "k" (.lam "ih" (.apply (.var "f") (.var "k"))))) ∧
    SameNormalForms .onDemand []
      (.quaternary .recList (listOf [numeral 7, numeral 5]) (.unary .list .nat) (.const .nil)
        (.lam "e" (.lam "es" (pushing "e"))))
      (.quaternary .indList (listOf [numeral 7, numeral 5]) (.lam "es" (.unary .list .nat))
        (.const .nil) (.lam "e" (.lam "es" (pushing "e")))) ∧
    -- Over a vector, the step is passed the number of entries that are left.
    SameNormalForms .onDemand []
      (.indVec (numeral 2) (vecOf [numeral 7, numeral 5])
        (.lam "k" (.lam "es" (.unary .list .nat))) (.const .nil)
        (.lam "k" (.lam "e" (.lam "es" (pushing "k")))))
      (fold vecPasses (.lam "k" (.lam "e" (.lam "es" (pushing "k")))) (.const .nil)
        [numeral 7, numeral 5]) ∧
    (Core.indVec (numeral 2) (vecOf [numeral 7, numeral 5])
      (.lam "k" (.lam "es" (.unary .list .nat))) (.const .nil)
      (.lam "k" (.lam "e" (.lam "es" (pushing "k"))))).normalForm .onDemand 20 20 [] []
        (.list .nat) = .ok (listOf [numeral 1, numeral 0]) ∧
    SameNormalForms .onDemand []
      (.quaternary .recList (listOf [numeral 7, numeral 5]) (.unary .list .nat) (.const .nil)
        (.lam "e" (.lam "es" (pushing "e"))))
      (.indVec (numeral 2) (vecOf [numeral 7, numeral 5])
        (.lam "k" (.lam "es" (.unary .list .nat))) (.const .nil)
        (.lam "k" (.lam "e" (.lam "es" (pushing "e"))))) := by
  obtain ⟨hnat, -, hwhich, -, hlist, hvec, hboth⟩ := recursors_agree .onDemand [] (.const .nil)
  obtain ⟨-, hiter, -⟩ := recursors_agree .onDemand [("x", .zero)] (.const .nil)
  obtain ⟨-, -, -, happly, -⟩ :=
    recursors_agree .onDemand [("f", .lam "k" (.constant .zero))] .zero
  refine ⟨?_, rfl, ?_, ?_, ?_, ?_, ?_, rfl, ?_⟩
  · exact hnat 2 _ _ _ (.recNat _) (.indNat _)
  · exact hiter 2 "k" _ _ _ (by decide) (.recNat _)
  · exact hwhich 2 "k" "ih" _ _ _ (by decide) (.recNat _)
  · exact happly 2 "k" "ih" _ _ _ (by decide) (by decide) (by decide) (.recNat _)
  · exact hlist _ _ _ _ (.recList _) (.indList _)
  · exact hvec [numeral 7, numeral 5] _ _ _ (.indVec _) .unfolded
  · exact hboth [numeral 7, numeral 5] "k" "e" "es" _ _ _ (by decide) (by decide)
      (.recList _) (.indVec _)

end Core

end PieChecker
