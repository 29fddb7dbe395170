import PieChecker.Proofs.Simulation.Alpha
import PieChecker.Proofs.Simulation.ReadBack

set_option autoImplicit false

/-!
# Evaluation on demand

Evaluation on demand gives whatever evaluation at once gives: if a term is evaluated and its
value read back with nothing delayed, then doing so on demand gives the same normal form. The
converse does not hold, since what is delayed and never asked for may have no value.

The two evaluators do not give the same values, only values that are alike: on the one side a
part is there already, on the other side its evaluation may still be delayed. What the theorem
takes as given is therefore not a pair of environments and types but how they are built, a
`Recipe`, which each strategy follows in its own way.
-/

namespace PieChecker

open Likeness

/-! ## Building values -/

mutual

/-- How a value is built. -/
inductive Recipe where
  /-- By evaluating a term in an environment. -/
  | evaluate (environment : Recipes) (term : Core)
  /-- As a variable of a type. -/
  | variable (x : String) (ty : Recipe)
  /-- By taking a value apart: the part at the given position. -/
  | part (whole : Recipe) (i : Nat)
  /-- By giving the family of a dependent type its argument. -/
  | member (ty argument : Recipe)

/-- How an environment is built, the newest name first. -/
inductive Recipes where
  | nil
  | cons (x : String) (value : Recipe) (rest : Recipes)

end

/-- The values that a value which is not delayed is made of. -/
def Value.parts : Value → List Value
  | .neutral ty _ => [ty]
  | .quant _ _ base _ => [base]
  | .unary _ a => [a]
  | .binary _ a b => [a, b]
  | .equal ty lhs rhs => [ty, lhs, rhs]
  | .delay _ | .const _ | .quote _ | .lam _ _ => []

mutual

/-- Follows a recipe for a value, evaluating by the given strategy. -/
def Recipe.build (strategy : Strategy) (fuel : Nat) : Recipe → Outcome Value
  | .evaluate environment term =>
    do term.evaluate strategy fuel (← environment.build strategy fuel)
  | .variable x ty => return .var x (← ty.build strategy fuel)
  | .part whole i => do
    match (← (← whole.build strategy fuel).now).parts[i]? with
    | some v => return v
    | none => Outcome.broken
  | .member ty argument => do
    match ← (← ty.build strategy fuel).now with
    | .quant _ _ _ family => family.run strategy fuel (← argument.build strategy fuel)
    | _ => Outcome.broken

/-- Follows a recipe for an environment. -/
def Recipes.build (strategy : Strategy) (fuel : Nat) : Recipes → Outcome Environment
  | .nil => return []
  | .cons x value rest => do
    let ρ ← rest.build strategy fuel
    return (x, ← value.build strategy fuel) :: ρ

end

/-! ## Comparing the two strategies -/

/-- The comparison of evaluation at once with evaluation on demand. Nothing is claimed where the
former stops. -/
def Comparison.strategic : Comparison where
  left := .atOnce
  right := .onDemand
  binder := Eq
  span := Eq
  leftFree _ := True
  rightFree _ := False
  agreed _ := True
  agreed_broken := True.intro
  agreed_exhausted := True.intro
  strategies := Or.inr (Or.inl ⟨rfl, rfl, fun _ => True.intro⟩)

namespace Comparison

theorem fuels_strategic {n m : Nat} (h : n ≤ m) : strategic.Fuels n m :=
  Or.inr (Or.inl ⟨h, True.intro⟩)

/-- If evaluation at once gives a result, so does evaluation on demand, and the results are
alike. -/
theorem exists_of_strategic {α β : Type} {R : α → β → Prop} {r : Outcome α} {s : Outcome β}
    (h : strategic.Outcomes R r s) {a : α} (hr : r = .ok a) : ∃ b, s = .ok b ∧ R a b := by
  subst hr
  cases s with
  | ok b => exact ⟨b, rfl, h⟩
  | error e => exact h.elim

end Comparison

/-- A binder that has the same name on both sides leaves every name standing for itself. -/
theorem NameRelation.push_eq (y : String) : NameRelation.push Eq y y = Eq := by
  funext a b
  refine propext ⟨?_, ?_⟩
  · rintro (⟨rfl, rfl⟩ | ⟨_, _, rfl⟩) <;> rfl
  · rintro rfl
    by_cases h : a = y
    · exact Or.inl ⟨h, h⟩
    · exact Or.inr ⟨h, h, rfl⟩

/-- Two runs that give binders the same names have the same names in use, and every name stands
for itself, in use or not. -/
def Worlds.sameNames {K : Comparison} (hbinder : K.binder = Eq) (hagreed : K.agreed .overflow) :
    Worlds K where
  admits W := W.left = W.right ∧ W.var = Eq
  var_push := by
    rintro W y z ⟨_, hvar⟩ _ _ ⟨_, hpush⟩ a b hab
    rw [hvar] at hab
    rw [hpush]
    exact hab
  biunique := by
    rintro W a a' b b' ⟨_, hvar⟩ hab hab'
    rw [hvar] at hab hab'
    rw [hab, hab']
  fresh := by
    rintro W o o' a b ⟨hnames, hvar⟩ ho hab
    rw [hbinder] at ho hab ⊢
    obtain rfl : o = o' := List.forall₂_eq_eq_eq ▸ ho
    cases hab
    rw [hnames]
    cases hy : Name.freshen (W.right ++ o) a with
    | error s =>
      rw [Name.freshen_stop hy]
      exact Compared.of_errors ⟨rfl, hagreed⟩
    | ok y =>
      have hnew := Name.freshen_not_mem hy
      refine ⟨rfl, hnew, hnew, ?_, ?_⟩
      · exact congrArg (y :: ·) hnames
      · show NameRelation.push W.var y y = Eq
        rw [hvar, NameRelation.push_eq]

/-- The two strategies give binders the same names. -/
def Worlds.identical : Worlds .strategic := .sameNames rfl True.intro

/-- Related terms are equal where names stand for themselves. -/
theorem Core.Related.eq_of_sameNames {K : Comparison} (hbinder : K.binder = Eq)
    (hspan : K.span = Eq) {σ : NameRelation} {t t' : Core} (h : Core.Related K σ t t')
    (hσ : σ = Eq) : t = t' := by
  induction h with
  | var h =>
    subst hσ
    rw [h]
  | const c => rfl
  | quote a => rfl
  | todo hs _ ih =>
    rw [hspan] at hs
    rw [hs, ih hσ]
  | quant q hx _ _ ihb ihf =>
    subst hσ
    rw [hbinder] at hx
    cases hx
    rw [ihb rfl, ihf (NameRelation.push_eq _)]
  | lam hx _ ih =>
    subst hσ
    rw [hbinder] at hx
    cases hx
    rw [ih (NameRelation.push_eq _)]
  | unary o _ ih => rw [ih hσ]
  | binary o _ _ iha ihb => rw [iha hσ, ihb hσ]
  | ternary o _ _ _ iha ihb ihc => rw [iha hσ, ihb hσ, ihc hσ]
  | quaternary o _ _ _ _ iha ihb ihc ihd => rw [iha hσ, ihb hσ, ihc hσ, ihd hσ]
  | indVec _ _ _ _ _ ihl iht ihm ihb ihs => rw [ihl hσ, iht hσ, ihm hσ, ihb hσ, ihs hσ]

theorem Core.Related.eq_of_strategic {σ : NameRelation} {t t' : Core}
    (h : Core.Related .strategic σ t t') (hσ : σ = Eq) : t = t' :=
  h.eq_of_sameNames rfl rfl hσ

theorem Core.related_strategic (t : Core) : Core.Related .strategic Eq t t :=
  .refl (fun _ => rfl) (fun _ => rfl) fun _ _ => rfl

/-- Values that are alike: the one was built at once, the other one on demand. -/
abbrev alike : Likeness .strategic := renamed .strategic Eq

/-- The parts of values that are alike are alike. -/
theorem Likeness.Head.parts {K : Comparison} {M : Likeness K} {v w : Value} (h : M.Head v w) :
    List.Forall₂ M.value v.parts w.parts := by
  cases h with
  | neutral hty _ => exact .cons hty .nil
  | const | quote | lam => exact .nil
  | quant _ _ hb _ => exact .cons hb .nil
  | unary _ ha => exact .cons ha .nil
  | binary _ ha hb => exact .cons ha (.cons hb .nil)
  | equal hty hl hr => exact .cons hty (.cons hl (.cons hr .nil))

mutual

/-- The two strategies follow a recipe to values that are alike. -/
theorem Recipe.build_alike {n m : Nat} (hnm : n ≤ m) : ∀ r : Recipe,
    Comparison.strategic.Outcomes alike.value (r.build .atOnce n) (r.build .onDemand m)
  | .evaluate environment term => by
    rw [Recipe.build, Recipe.build]
    refine (Recipes.build_alike hnm environment).bind fun ρ ρ' hρ => ?_
    exact (renamed_evaluates (fun _ => rfl) (Comparison.fuels_strategic hnm)).1 hρ
      term.related_strategic
  | .variable x ty => by
    rw [Recipe.build, Recipe.build]
    refine (Recipe.build_alike hnm ty).bind fun T T' hT => .of_ok ?_
    exact renamed_closed.ofHead (.neutral hT (rule_below_renamed.neutral (.var rfl)))
  | .part whole i => by
    rw [Recipe.build, Recipe.build]
    refine (Recipe.build_alike hnm whole).bind fun v w hv => (renamed_closed.now hv).bind
      fun v w hv => ?_
    have hparts := hv.parts
    have hlength := hparts.length_eq
    cases hi : v.parts[i]? with
    | none =>
      rw [List.getElem?_eq_none_iff] at hi
      rw [List.getElem?_eq_none_iff.2 (hlength ▸ hi)]
      exact Comparison.outcomes_broken _
    | some a =>
      obtain ⟨hlt, rfl⟩ := List.getElem?_eq_some_iff.1 hi
      rw [List.getElem?_eq_getElem (hlength ▸ hlt)]
      exact hparts.get hlt (hlength ▸ hlt)
  | .member ty argument => by
    rw [Recipe.build, Recipe.build]
    refine (Recipe.build_alike hnm ty).bind fun T T' hT => (renamed_closed.now hT).bind
      fun T T' hT => ?_
    cases hT with
    | quant q _ _ hfamily =>
      refine (Recipe.build_alike hnm argument).bind fun a a' ha => ?_
      exact (renamed_evaluates (fun _ => rfl) (Comparison.fuels_strategic hnm)).2.run hfamily ha
    | _ => exact Comparison.outcomes_broken _

/-- The two strategies follow a recipe to environments with values that are alike. -/
theorem Recipes.build_alike {n m : Nat} (hnm : n ≤ m) : ∀ r : Recipes,
    Comparison.strategic.Outcomes (alike.Environments Eq) (r.build .atOnce n)
      (r.build .onDemand m)
  | .nil => by
    rw [Recipes.build, Recipes.build]
    exact Compared.of_ok ⟨fun _ _ _ => rfl, fun _ _ _ _ => True.intro, nofun⟩
  | .cons x value rest => by
    rw [Recipes.build, Recipes.build]
    refine (Recipes.build_alike hnm rest).bind fun ρ ρ' hρ =>
      (Recipe.build_alike hnm value).bind fun v w hv => ?_
    have hcons := hρ.cons hv x x
    rw [NameRelation.push_eq] at hcons
    exact Compared.of_ok hcons

end

/-- Evaluates a term in an environment and reads its value back at a type, all of them built by
one strategy. -/
def Recipe.normalForm (strategy : Strategy) (fuel : Nat) (names : List String)
    (environment : Recipes) (term : Core) (ty : Recipe) : Outcome Core := do
  let ρ ← environment.build strategy fuel
  let T ← ty.build strategy fuel
  let v ← term.evaluate strategy fuel ρ
  T.readBack strategy fuel names v

/-- Evaluation on demand agrees with evaluation at once: if a normal form is found with nothing
delayed, then it is found on demand, with no less fuel, whatever the names in use. -/
theorem Recipe.normalForm_onDemand_eq {n m : Nat} (hnm : n ≤ m) (names : List String)
    (environment : Recipes) (term : Core) (ty : Recipe) {t : Core}
    (h : Recipe.normalForm .atOnce n names environment term ty = .ok t) :
    Recipe.normalForm .onDemand m names environment term ty = .ok t := by
  have hfuels := Comparison.fuels_strategic hnm
  have hW : Worlds.identical.admits ⟨names, names, Eq⟩ := ⟨rfl, rfl⟩
  have hcompared : Comparison.strategic.Outcomes (Core.Related .strategic Eq)
      (Recipe.normalForm .atOnce n names environment term ty)
      (Recipe.normalForm .onDemand m names environment term ty) := by
    refine (Recipes.build_alike hnm environment).bind fun ρ ρ' hρ => ?_
    refine (Recipe.build_alike hnm ty).bind fun T T' hT => ?_
    refine ((renamed_evaluates (fun _ => rfl) hfuels).1 hρ term.related_strategic).bind
      fun v w hv => ?_
    exact (reads (fun _ => rfl) Worlds.identical hfuels).value hW hT hv
  obtain ⟨t', ht', hrelated⟩ := Comparison.exists_of_strategic hcompared h
  rw [ht', hrelated.eq_of_strategic rfl]

/-- A pair whose first part is delayed until it is asked for, with the number `n` in it. -/
def Recipes.delayedPair : Recipes :=
  .cons "p"
    (.evaluate (.cons "n" (.variable "n" (.evaluate .nil .nat)) .nil)
      (.binary .cons (.add1 (.add1 (.var "n"))) (.const .sole)))
    .nil

theorem Recipe.normalForm_delayedPair :
    Recipe.normalForm .atOnce 4 ["n"] .delayedPair (.unary .car (.var "p"))
      (.evaluate .nil .nat) = .ok (.add1 (.add1 (.var "n"))) ∧
    Recipe.normalForm .onDemand 5 ["n"] .delayedPair (.unary .car (.var "p"))
      (.evaluate .nil .nat) = .ok (.add1 (.add1 (.var "n"))) :=
  ⟨rfl, Recipe.normalForm_onDemand_eq (Nat.le_succ 4) _ _ _ _ rfl⟩

end PieChecker
