import PieChecker.Proofs.CallByNeed
import PieChecker.Proofs.Postcondition

set_option autoImplicit false

/-!
# Values that come from evaluation

The type of values has inhabitants that evaluation never gives, for example a `trans` that waits
for one operand although the other one is no equality. What evaluation gives is properly built,
whether or not the terms are typed or even scoped. `Value.Evaluated` says which values these
are, and what they have in common is that each of them is like itself. This looks like
reflexivity and is not, since only what is properly built is like anything.

The names of the binders of all terms may be required to have a given property, which is then
found again in the values.
-/

namespace PieChecker

open Likeness

/-! ## Properties of all parts of a term -/

namespace Core

/-- The property holds of the term and of all terms in it. -/
def Everywhere (P : Core → Prop) : Core → Prop
  | var x => P (var x)
  | const c => P (const c)
  | quote a => P (quote a)
  | todo s ty => P (todo s ty) ∧ ty.Everywhere P
  | quant q x base family => P (quant q x base family) ∧ base.Everywhere P ∧ family.Everywhere P
  | lam x body => P (lam x body) ∧ body.Everywhere P
  | unary o a => P (unary o a) ∧ a.Everywhere P
  | binary o a b => P (binary o a b) ∧ a.Everywhere P ∧ b.Everywhere P
  | ternary o a b c => P (ternary o a b c) ∧ a.Everywhere P ∧ b.Everywhere P ∧ c.Everywhere P
  | quaternary o a b c d =>
    P (quaternary o a b c d) ∧ a.Everywhere P ∧ b.Everywhere P ∧ c.Everywhere P ∧ d.Everywhere P
  | indVec l t m b s =>
    P (indVec l t m b s) ∧ l.Everywhere P ∧ t.Everywhere P ∧ m.Everywhere P ∧ b.Everywhere P ∧
      s.Everywhere P

theorem everywhere_of_forall {P : Core → Prop} (h : ∀ t, P t) (t : Core) : t.Everywhere P := by
  induction t with
  | var | const | quote => exact h _
  | todo _ _ ih | lam _ _ ih | unary _ _ ih => exact ⟨h _, ih⟩
  | quant _ _ _ _ iha ihb | binary _ _ _ iha ihb => exact ⟨h _, iha, ihb⟩
  | ternary _ _ _ _ iha ihb ihc => exact ⟨h _, iha, ihb, ihc⟩
  | quaternary _ _ _ _ _ iha ihb ihc ihd => exact ⟨h _, iha, ihb, ihc, ihd⟩
  | indVec _ _ _ _ _ ihl iht ihm ihb ihs => exact ⟨h _, ihl, iht, ihm, ihb, ihs⟩

/-- The name that a term binds in its last part. -/
def binder? : Core → Option String
  | quant _ x _ _ | lam x _ => some x
  | _ => none

/-- All binders of a term have names with the given property. -/
def Labelled (label : String → Prop) (t : Core) : Prop :=
  t.Everywhere fun u => ∀ x ∈ u.binder?, label x

theorem labelled_of_forall {label : String → Prop} (h : ∀ x, label x) (t : Core) :
    t.Labelled label :=
  everywhere_of_forall (fun _ x _ => h x) t

end Core

/-! ## A run compared with itself -/

/-- How a run may stop, if running out of names may be excluded. -/
abbrev Stop.Allowed (overflow : Prop) (s : Stop) : Prop := s = .overflow → overflow

theorem Stop.ends_broken {overflow : Prop} {α : Type} {promised : α → Prop} :
    Ends (Stop.Allowed overflow) promised Outcome.broken := by
  intro h
  cases h

theorem Stop.ends_exhausted {overflow : Prop} {α : Type} {promised : α → Prop} :
    Ends (Stop.Allowed overflow) promised Outcome.exhausted := by
  intro h
  cases h

/-- The comparison of a run with itself. The names of binders have a given property, and running
out of names may be excluded. -/
def Comparison.itself (strategy : Strategy) (label : String → Prop) (overflow : Prop) :
    Comparison where
  left := strategy
  right := strategy
  binder x _ := label x
  span := Eq
  leftFree _ := False
  rightFree _ := False
  agreed := Stop.Allowed overflow
  agreed_broken := nofun
  agreed_exhausted := nofun
  strategies := Or.inl rfl

/-- The likeness of values with themselves, where every free name stands for itself. -/
abbrev Likeness.itself (strategy : Strategy) (label : String → Prop) (overflow : Prop) :
    Likeness (.itself strategy label overflow) :=
  renamed (.itself strategy label overflow) Eq

section Itself

variable {strategy : Strategy} {label : String → Prop} {overflow : Prop}

/-- A run that is compared with itself ends in a result that is like itself, and not for want of
names. -/
theorem Comparison.ends_of_itself {α : Type} {R : α → α → Prop} {r : Outcome α}
    (h : (Comparison.itself strategy label overflow).Outcomes R r r) :
    Ends (Stop.Allowed overflow) (fun a => R a a) r := by
  cases r with
  | ok a => exact h
  | error s =>
    rcases h with h | h | ⟨_, h⟩
    · exact h.elim
    · exact h.elim
    · exact h

/-- A term is related to itself, whatever its free names, if its binders have names with the
given property. -/
theorem Core.Labelled.related {t : Core} (h : t.Labelled label) :
    Core.Related (.itself strategy label overflow) Eq t t := by
  have below : ∀ {x : String} {u : Core},
      Core.Related (.itself strategy label overflow) Eq u u →
      Core.Related (.itself strategy label overflow) (NameRelation.push Eq x x) u u := by
    intro x u hu
    rw [NameRelation.push_eq]
    exact hu
  induction t with
  | var x => exact .var rfl
  | const c => exact .const c
  | quote a => exact .quote a
  | todo s ty ih => exact .todo rfl (ih h.2)
  | quant q x base family ihb ihf => exact .quant q (h.1 x rfl) (ihb h.2.1) (below (ihf h.2.2))
  | lam x body ih => exact .lam (h.1 x rfl) (below (ih h.2))
  | unary o a ih => exact .unary o (ih h.2)
  | binary o a b iha ihb => exact .binary o (iha h.2.1) (ihb h.2.2)
  | ternary o a b c iha ihb ihc => exact .ternary o (iha h.2.1) (ihb h.2.2.1) (ihc h.2.2.2)
  | quaternary o a b c d iha ihb ihc ihd =>
    exact .quaternary o (iha h.2.1) (ihb h.2.2.1) (ihc h.2.2.2.1) (ihd h.2.2.2.2)
  | indVec l t m b s ihl iht ihm ihb ihs =>
    exact .indVec (ihl h.2.1) (iht h.2.2.1) (ihm h.2.2.2.1) (ihb h.2.2.2.2.1) (ihs h.2.2.2.2.2)

/-- In an environment of values that are like themselves, each name may stand for itself, with a
value or without. -/
theorem environments_itself {ρ : Environment}
    (h : ∀ x v, (x, v) ∈ ρ → (Likeness.itself strategy label overflow).value v v) :
    (Likeness.itself strategy label overflow).Environments Eq ρ ρ where
  isSome_eq := by
    intro a b hab
    rw [hab]
  unbound := by
    intro a b _ _
    exact nofun
  value := by
    intro a b v w hab hv hw
    subst hab
    obtain rfl : v = w := Option.some.inj (hv.symm.trans hw)
    obtain ⟨before, after, hsplit, _⟩ := List.lookup_eq_some_iff.1 hv
    exact h a v (by simp [hsplit])

theorem applies_itself (hb : (Comparison.itself strategy label overflow).KeepsOperands)
    (n : Nat) :
    (Likeness.itself strategy label overflow).Applies (application strategy n)
    (application strategy n) :=
  (renamed_evaluates_of_operands hb (Comparison.fuels_refl n)).2

theorem variable_itself (x : String) {ty : Value}
    (hty : (Likeness.itself strategy label overflow).value ty ty) :
    (Likeness.itself strategy label overflow).value (.var x ty) (.var x ty) :=
  renamed_closed.ofHead (.neutral hty (rule_below_renamed.neutral (.var rfl)))

end Itself

/-! ## Taking values apart -/

/-- The values that stand inside a stuck elimination, each with its type. -/
def Neutral.operands : Neutral → List Normal
  | var _ | todo _ _ | project _ _ | transBoth _ _ => []
  | apply _ a | indAbsurd _ a | transLeft _ a | transRight a _ => [a]
  | recursor _ _ a b | transport _ _ a b | cong _ a b => [a, b]
  | induct _ _ m b s | indVecBoth _ _ m b s => [m, b, s]
  | indVecTarget l _ m b s => [l, m, b, s]

/-- A value and its type. -/
def Normal.parts : Normal → List Value
  | ⟨ty, value⟩ => [ty, value]

/-- The values that a value which is not delayed is made of, those inside a stuck elimination
included. -/
def Value.components : Value → List Value
  | .neutral ty stuck => ty :: stuck.operands.flatMap Normal.parts
  | v => v.parts

section Components

variable {K : Comparison}

/-- The operands of stuck eliminations that are alike are alike. -/
theorem Likeness.Eliminations.operands {M : Likeness K} (hM : M.Closed) {e e' : Neutral}
    (h : M.Eliminations e e') :
    List.Forall₂ M.normal e.operands e'.operands := by
  cases h with
  | project | transBoth => exact .nil
  | apply _ ha | indAbsurd _ ha => exact .cons ha .nil
  | transLeft _ hs hp | transRight hs hp _ => exact .cons (hM.reflexive hs hp) .nil
  | recursor _ _ ha hb | transport _ _ ha hb | cong _ ha hb => exact .cons ha (.cons hb .nil)
  | induct _ _ hm hb hs | indVecBoth _ _ hm hb hs => exact .cons hm (.cons hb (.cons hs .nil))
  | indVecTarget hl _ hm hb hs => exact .cons hl (.cons hm (.cons hb (.cons hs .nil)))

variable {β : NameRelation}

theorem operand_itself {stuck : Neutral} (h : (renamed K β).neutral stuck stuck) {a : Normal}
    (ha : a ∈ stuck.operands) : (renamed K β).normal a a := by
  cases renamed_below_rule.neutral h with
  | var | todo => cases ha
  | eliminations h => exact List.forall₂_same.1 (h.operands renamed_closed) a ha
  | transLeft _ _ h | transRight _ h _ =>
    rw [List.mem_singleton.1 ha]
    exact h

/-- The components of a value that is like itself are like themselves. -/
theorem component_itself {v w a : Value} (hv : (renamed K β).value v v) (hw : v.now = .ok w)
    (ha : a ∈ w.components) : (renamed K β).value a a := by
  have hhead := (renamed_closed.now hv).of_eq_ok hw hw
  unfold Value.components at ha
  split at ha
  · cases hhead with
    | neutral hty he =>
      rcases List.mem_cons.1 ha with rfl | ha
      · exact hty
      · obtain ⟨⟨ty, v⟩, hoperand, ha⟩ := List.mem_flatMap.1 ha
        have hoperand := operand_itself he hoperand
        rcases List.mem_pair.1 ha with rfl | rfl
        · exact hoperand.1
        · exact hoperand.2
  · exact List.forall₂_same.1 hhead.parts a ha

/-- What a family of types that is like itself gives for an argument that is like itself. -/
theorem member_itself (hb : K.KeepsOperands) (hK : K.right = K.left) {n : Nat}
    {ty base a r : Value} {q : Quantifier} {x : String} {family : Closure}
    (hty : (renamed K β).value ty ty) (hnow : ty.now = .ok (.quant q x base family))
    (ha : (renamed K β).value a a) (hr : family.run K.left n a = .ok r) :
    (renamed K β).value r r := by
  cases (renamed_closed.now hty).of_eq_ok hnow hnow with
  | quant _ _ _ hfamily =>
    have happlies : (renamed K β).Applies (application K.left n) (application K.right n) :=
      (renamed_evaluates_of_operands hb (Comparison.fuels_refl n)).2
    rw [hK] at happlies
    exact (happlies.run hfamily ha).of_eq_ok hr hr

end Components

/-! ## Evaluation -/

/-- The values that come from evaluation, if the binders of terms have names with the given
property: values of terms in environments of such values, variables of such types, what such
values are made of, and what families of types give for such values. -/
inductive Value.Evaluated (strategy : Strategy) (label : String → Prop) : Value → Prop where
  | term {n : Nat} {ρ : Environment} {t : Core} {v : Value}
      (hρ : ∀ x w, (x, w) ∈ ρ → Evaluated strategy label w)
    (ht : t.Labelled label) (hv : t.evaluate strategy n ρ = .ok v) : Evaluated strategy label v
  | free (x : String) {ty : Value} (hty : Evaluated strategy label ty) :
      Evaluated strategy label (.var x ty)
  | component {v w a : Value} (hv : Evaluated strategy label v) (hw : v.now = .ok w)
      (ha : a ∈ w.components) :
    Evaluated strategy label a
  | member {n : Nat} {ty base a r : Value} {q : Quantifier} {x : String} {family : Closure}
    (hty : Evaluated strategy label ty) (hnow : ty.now = .ok (.quant q x base family))
    (ha : Evaluated strategy label a) (hr : family.run strategy n a = .ok r) :
    Evaluated strategy label r

/-- All values of an environment come from evaluation. -/
def Environment.Evaluated (strategy : Strategy) (label : String → Prop)
    (ρ : Environment) : Prop :=
  ∀ x v, (x, v) ∈ ρ → v.Evaluated strategy label

section Evaluated

variable {strategy : Strategy} {label : String → Prop} {overflow : Prop}

/-- Evaluation of a term ends in a value that is like itself, and not for want of names. -/
theorem evaluate_itself (hb : (Comparison.itself strategy label overflow).KeepsOperands)
    (n : Nat) {ρ : Environment} (hρ : ∀ x v, (x, v) ∈ ρ →
      (Likeness.itself strategy label overflow).value v v) {t : Core} (ht : t.Labelled label) :
    Ends (Stop.Allowed overflow) (fun v => (Likeness.itself strategy label overflow).value v v)
      (t.evaluate strategy n ρ) := by
  have hcompared := (renamed_evaluates_of_operands hb (Comparison.fuels_refl n)).1
    (environments_itself hρ) ht.related
  exact Comparison.ends_of_itself hcompared

/-- Values that come from evaluation are like themselves. -/
theorem Value.Evaluated.itself (hb : (Comparison.itself strategy label overflow).KeepsOperands)
    {v : Value} (hv : v.Evaluated strategy label) :
    (Likeness.itself strategy label overflow).value v v := by
  induction hv with
  | term _ ht hv ihρ => exact (evaluate_itself hb _ ihρ ht).of_eq_ok hv
  | free x _ ih => exact variable_itself x ih
  | component _ hw ha ih => exact component_itself ih hw ha
  | member _ hnow _ hr ihty iha =>
    exact member_itself (K := .itself strategy label overflow) hb rfl ihty hnow iha hr

end Evaluated

end PieChecker
