import PieChecker.Proofs.Simulation.Evaluation

set_option autoImplicit false

/-!
# Values that are equal up to names

Likenesses are defined by what they allow at the outermost constructor, with parts that are
alike again. `least` is the smallest likeness that a monotone rule of this kind allows. It is a
fixed point of the rule, so it can be taken apart and put together one constructor at a time.

`renamed` is the likeness of values that differ only in the names of binders and of free
variables, the latter as a given correspondence says. The evaluator preserves it, and it grows
with the correspondence.
-/

namespace PieChecker

namespace Likeness

variable {K : Comparison}

/-! ## Comparing likenesses -/

/-- One likeness allows no more than another one. -/
structure Below (M N : Likeness K) : Prop where
  value : ∀ {v w}, M.value v w → N.value v w
  neutral : ∀ {e e'}, M.neutral e e' → N.neutral e e'
  closure : ∀ {c c'}, M.closure c c' → N.closure c c'

namespace Below

variable {M N : Likeness K} (h : M.Below N)

include h

theorem normal {a a' : Normal} (ha : M.normal a a') : N.normal a a' := by
  cases a
  cases a'
  exact ⟨h.value ha.1, h.value ha.2⟩

theorem head {v w : Value} (hv : M.Head v w) : N.Head v w := by
  cases hv with
  | neutral hty he => exact .neutral (h.value hty) (h.neutral he)
  | const c => exact .const c
  | quote a => exact .quote a
  | quant q hx hb hf => exact .quant q hx (h.value hb) (h.closure hf)
  | lam hx hb => exact .lam hx (h.closure hb)
  | unary o ha => exact .unary o (h.value ha)
  | binary o ha hb => exact .binary o (h.value ha) (h.value hb)
  | equal hty hl hr => exact .equal (h.value hty) (h.value hl) (h.value hr)

theorem eliminations {e e' : Neutral} (he : M.Eliminations e e') : N.Eliminations e e' := by
  cases he with
  | project o he => exact .project o (h.neutral he)
  | apply he ha => exact .apply (h.neutral he) (h.normal ha)
  | recursor o he hb hs => exact .recursor o (h.neutral he) (h.normal hb) (h.normal hs)
  | transport o he hm hb => exact .transport o (h.neutral he) (h.normal hm) (h.normal hb)
  | induct o he hm hb hs =>
    exact .induct o (h.neutral he) (h.normal hm) (h.normal hb) (h.normal hs)
  | indAbsurd he hm => exact .indAbsurd (h.neutral he) (h.normal hm)
  | cong he hr hf => exact .cong (h.neutral he) (h.normal hr) (h.normal hf)
  | transLeft he hs hp => exact .transLeft (h.neutral he) (h.value hs) (h.value hp)
  | transRight hs hp he => exact .transRight (h.value hs) (h.value hp) (h.neutral he)
  | transBoth he hf => exact .transBoth (h.neutral he) (h.neutral hf)
  | indVecTarget hl he hm hb hs =>
    exact .indVecTarget (h.normal hl) (h.neutral he) (h.normal hm) (h.normal hb) (h.normal hs)
  | indVecBoth hl he hm hb hs =>
    exact .indVecBoth (h.neutral hl) (h.neutral he) (h.normal hm) (h.normal hb) (h.normal hs)

theorem environments {σ : NameRelation} {ρ ρ' : Environment} (hρ : M.Environments σ ρ ρ') :
    N.Environments σ ρ ρ' where
  isSome_eq := hρ.isSome_eq
  unbound := hρ.unbound
  value := fun a b v w hσ hv hw => h.value (hρ.value a b v w hσ hv hw)

theorem captures {c c' : Closure} (hc : M.Captures c c') : N.Captures c c' := by
  cases hc with
  | captured hbody hρ => exact .captured hbody (h.environments hρ)
  | constant hv => exact .constant (h.value hv)
  | indNatStep hm => exact .indNatStep (h.value hm)
  | indListStep he hm => exact .indListStep (h.value he) (h.value hm)
  | indListStepTail hm hh => exact .indListStepTail (h.value hm) (h.value hh)
  | indEqMotive ht hl => exact .indEqMotive (h.value ht) (h.value hl)
  | indVecMotive he => exact .indVecMotive (h.value he)
  | indVecStep he hm => exact .indVecStep (h.value he) (h.value hm)
  | indVecStepHead he hm hl => exact .indVecStepHead (h.value he) (h.value hm) (h.value hl)
  | indVecStepTail hm hl hh => exact .indVecStepTail (h.value hm) (h.value hl) (h.value hh)
  | indEitherMethod side hm => exact .indEitherMethod side (h.value hm)

end Below

/-! ## The least likeness that a rule allows -/

/-- The least likeness that allows what a rule makes of it. -/
def least (rule : Likeness K → Likeness K) : Likeness K where
  value v w := ∀ M, (rule M).Below M → M.value v w
  neutral e e' := ∀ M, (rule M).Below M → M.neutral e e'
  closure c c' := ∀ M, (rule M).Below M → M.closure c c'

theorem least_below {rule : Likeness K → Likeness K} {M : Likeness K} (h : (rule M).Below M) :
    (least rule).Below M where
  value hv := hv M h
  neutral he := he M h
  closure hc := hc M h

section Rule

variable {rule : Likeness K → Likeness K}
  (mono : ∀ {M N : Likeness K}, M.Below N → (rule M).Below (rule N))

include mono

theorem rule_below_least : (rule (least rule)).Below (least rule) where
  value hv _ h := h.value ((mono (least_below h)).value hv)
  neutral he _ h := h.neutral ((mono (least_below h)).neutral he)
  closure hc _ h := h.closure ((mono (least_below h)).closure hc)

theorem least_below_rule : (least rule).Below (rule (least rule)) :=
  least_below (mono (rule_below_least mono))

end Rule

/-! ## Renaming -/

/-- Two stuck eliminations wait for corresponding variables or unfinished parts. -/
inductive Stuck (M : Likeness K) (β : NameRelation) : Neutral → Neutral → Prop where
  | var {x y : String} (h : β x y) : Stuck M β (.var x) (.var y)
  | todo {s t : Span} {ty ty' : Value} (hs : K.span s t) (hty : M.value ty ty') :
    Stuck M β (.todo s ty) (.todo t ty')
  | eliminations {e e' : Neutral} (h : M.Eliminations e e') : Stuck M β e e'
  | transLeft (hK : K.anyOperand) {e e' : Neutral} {a a' : Normal} (he : M.neutral e e')
      (ha : M.normal a a') :
    Stuck M β (.transLeft e a) (.transLeft e' a')
  | transRight (hK : K.anyOperand) {a a' : Normal} {e e' : Neutral} (ha : M.normal a a')
      (he : M.neutral e e') :
    Stuck M β (.transRight a e) (.transRight a' e')

theorem Below.stuck {M N : Likeness K} (h : M.Below N) {β γ : NameRelation}
    (hβ : ∀ a b, β a b → γ a b) {e e' : Neutral} (he : M.Stuck β e e') : N.Stuck γ e e' := by
  cases he with
  | var hx => exact .var (hβ _ _ hx)
  | todo hs hty => exact .todo hs (h.value hty)
  | eliminations he => exact .eliminations (h.eliminations he)
  | transLeft hK he ha => exact .transLeft hK (h.neutral he) (h.normal ha)
  | transRight hK ha he => exact .transRight hK (h.normal ha) (h.neutral he)

/-- Values that are equal up to names have parts that are alike. -/
def renamedRule (β : NameRelation) (M : Likeness K) : Likeness K where
  value v w := K.Outcomes M.Head v.now w.now
  neutral := M.Stuck β
  closure := M.Captures

theorem renamedRule_mono {β γ : NameRelation} (hβ : ∀ a b, β a b → γ a b) {M N : Likeness K}
    (h : M.Below N) :
    (renamedRule β M).Below (renamedRule γ N) where
  value hv := Compared.mono hv fun _ _ => h.head
  neutral := h.stuck hβ
  closure := h.captures

variable (K) in
/-- Equality of values up to the names of binders, with the given correspondence of free
variables. -/
def renamed (β : NameRelation) : Likeness K := least (renamedRule β)

section Renamed

variable {β : NameRelation}

theorem renamed_below_rule : (renamed K β).Below (renamedRule β (renamed K β)) :=
  least_below_rule (renamedRule_mono fun _ _ => id)

theorem rule_below_renamed : (renamedRule β (renamed K β)).Below (renamed K β) :=
  rule_below_least (renamedRule_mono fun _ _ => id)

theorem renamed_mono {γ : NameRelation} (hβ : ∀ a b, β a b → γ a b) :
    (renamed K β).Below (renamed K γ) :=
  least_below
    { value := fun hv => rule_below_renamed.value hv
      neutral := fun he => rule_below_renamed.neutral (Below.stuck ⟨id, id, id⟩ hβ he)
      closure := fun hc => rule_below_renamed.closure hc }

theorem renamed_closed : (renamed K β).Closed where
  value_iff := ⟨renamed_below_rule.value, rule_below_renamed.value⟩
  neutral he := rule_below_renamed.neutral (.eliminations he)
  closure := rule_below_renamed.closure
  todo hs hty := .neutral hty (rule_below_renamed.neutral (.todo hs hty))

/-- The evaluator preserves equality up to names, if the names that it introduces itself stand
for themselves. -/
theorem renamed_evaluates_of_operands (hb : K.KeepsOperands) {n m : Nat} (hf : K.Fuels n m) :
    (renamed K β).Evaluates n m ∧ (renamed K β).Applies (application K.left n)
    (application K.right m) := by
  induction n generalizing m with
  | zero =>
    refine ⟨fun {σ ρ ρ' t t'} _ _ =>
      hf.zero_left (r := fun m => t'.evaluate K.right m ρ') rfl, ?_⟩
    exact
      { apply := fun {f f' a a'} _ _ => hf.zero_left (r := fun m => f'.apply K.right m a') rfl
        run := fun {c c' a a'} _ _ => hf.zero_left (r := fun m => c'.run K.right m a') rfl }
  | succ n ih =>
    cases m with
    | zero =>
      refine ⟨fun _ _ => hf.zero_right _, ?_⟩
      exact
        { apply := fun _ _ => hf.zero_right _
          run := fun _ _ => hf.zero_right _ }
    | succ m =>
      obtain ⟨hev, hap⟩ := ih hf.of_succ
      refine ⟨Evaluates.succ renamed_closed hb hf.of_succ hev hap, ?_⟩
      exact
        { apply := fun hfun ha => apply_succ renamed_closed hap hfun ha
          run := fun hc ha => Captures.run_succ renamed_closed hb hev hap
            (renamed_below_rule.closure hc) ha }

theorem renamed_evaluates (hb : ∀ x, K.binder x x) {n m : Nat} (hf : K.Fuels n m) :
    (renamed K β).Evaluates n m ∧ (renamed K β).Applies (application K.left n)
    (application K.right m) :=
  renamed_evaluates_of_operands (.of_forall hb) hf

end Renamed

end Likeness

end PieChecker
