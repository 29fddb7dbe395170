import PieChecker.Proofs.GrownContexts
import PieChecker.Proofs.LexicalScope
import PieChecker.Proofs.LongNormalForms
import PieChecker.Proofs.Nameless

set_option autoImplicit false

/-!
# Normalization does not see bound names

Terms with the same de Bruijn form have normal forms that are equal up to bound names. The two
runs go through the same steps, but where they choose names for binders they start from
different suggestions. So one of them may run out of names where the other one does not, which
happens near the largest subscript; if all binders have names that do not end in subscript
digits, names do not run out at all, and then one run gives a normal form if the other one does.
-/

namespace PieChecker

open Likeness

/-! ## De Bruijn forms -/

namespace Core

/-- The de Bruijn form of a term, below a list of binders, the innermost one first. Other than
in the form that equality up to bound names compares, proofs of `Absurd` are told apart. -/
def deBruijn (bs : List String) : Core → Nameless
  | var x => .var (.below bs x)
  | const c => .const c
  | quote a => .quote a
  | todo span ty => .todo span (ty.deBruijn bs)
  | quant q x base family => .quant q (base.deBruijn bs) (family.deBruijn (x :: bs))
  | lam x body => .lam (body.deBruijn (x :: bs))
  | unary o a => .unary o (a.deBruijn bs)
  | binary o a b => .binary o (a.deBruijn bs) (b.deBruijn bs)
  | ternary o a b c => .ternary o (a.deBruijn bs) (b.deBruijn bs) (c.deBruijn bs)
  | quaternary o a b c d =>
    .quaternary o (a.deBruijn bs) (b.deBruijn bs) (c.deBruijn bs) (d.deBruijn bs)
  | indVec l t m b s =>
    .indVec (l.deBruijn bs) (t.deBruijn bs) (m.deBruijn bs) (b.deBruijn bs) (s.deBruijn bs)

/-- Names that stand for the same below one more binder on each side are the two parameters, or
neither of them is one, and they stand for the same without the binders. -/
theorem push_of_below_eq {σ : NameRelation} {ls rs : List String} {x y a b : String}
    (hσ : a ≠ x → Nameless.Variable.below ls a = Nameless.Variable.below rs b → σ a b)
    (h : Nameless.Variable.below (x :: ls) a = Nameless.Variable.below (y :: rs) b) :
    σ.push x y a b := by
  rw [← sameVariable_iff, sameVariable_cons] at h
  split at h
  · rename_i hax
    exact Or.inl ⟨hax, of_decide_eq_true h⟩
  · rename_i hax
    split at h
    · cases h
    · rename_i hby
      exact Or.inr ⟨hax, hby, hσ hax ((sameVariable_iff ls rs a b).1 h)⟩

/-- Terms with the same de Bruijn form are related, if free names that stand for the same
correspond. -/
theorem Related.of_deBruijn {K : Comparison} (hbinder : ∀ x y, K.binder x y)
    (hspan : ∀ s, K.span s s) {ls rs : List String} {t u : Core}
    (h : t.deBruijn ls = u.deBruijn rs) {σ : NameRelation}
    (hσ : ∀ a b, t.mentions a = true → Nameless.Variable.below ls a =
      Nameless.Variable.below rs b → σ a b) :
    Related K σ t u := by
  induction t generalizing ls rs u σ with
  | var x =>
    cases u with
    | var y =>
      rw [deBruijn, deBruijn, Nameless.var.injEq] at h
      exact .var (hσ x y (by simp [mentions]) h)
    | _ => simp [deBruijn] at h
  | const c =>
    cases u with
    | const c' =>
      rw [deBruijn, deBruijn, Nameless.const.injEq] at h
      rw [h]
      exact .const c'
    | _ => simp [deBruijn] at h
  | quote a =>
    cases u with
    | quote a' =>
      rw [deBruijn, deBruijn, Nameless.quote.injEq] at h
      rw [h]
      exact .quote a'
    | _ => simp [deBruijn] at h
  | todo s ty ih =>
    cases u with
    | todo s' ty' =>
      rw [deBruijn, deBruijn, Nameless.todo.injEq] at h
      obtain ⟨rfl, hty⟩ := h
      exact .todo (hspan s) (ih hty hσ)
    | _ => simp [deBruijn] at h
  | quant q x base family ihb ihf =>
    cases u with
    | quant q' y base' family' =>
      rw [deBruijn, deBruijn, Nameless.quant.injEq] at h
      obtain ⟨rfl, hb, hf⟩ := h
      refine .quant q (hbinder x y) (ihb hb fun a b ha => hσ a b (by simp [mentions, ha]))
        (ihf hf ?_)
      intro a b ha
      exact push_of_below_eq fun hax => hσ a b (by simp [mentions, ha, Ne.symm hax])
    | _ => simp [deBruijn] at h
  | lam x body ih =>
    cases u with
    | lam y body' =>
      rw [deBruijn, deBruijn, Nameless.lam.injEq] at h
      refine .lam (hbinder x y) (ih h ?_)
      intro a b ha
      exact push_of_below_eq fun hax => hσ a b (by simp [mentions, ha, Ne.symm hax])
    | _ => simp [deBruijn] at h
  | unary o a ih =>
    cases u with
    | unary o' a' =>
      rw [deBruijn, deBruijn, Nameless.unary.injEq] at h
      obtain ⟨rfl, ha⟩ := h
      exact .unary o (ih ha hσ)
    | _ => simp [deBruijn] at h
  | binary o a b iha ihb =>
    cases u with
    | binary o' a' b' =>
      rw [deBruijn, deBruijn, Nameless.binary.injEq] at h
      obtain ⟨rfl, ha, hb⟩ := h
      exact .binary o (iha ha fun x y hx => hσ x y (by simp [mentions, hx]))
        (ihb hb fun x y hx => hσ x y (by simp [mentions, hx]))
    | _ => simp [deBruijn] at h
  | ternary o a b c iha ihb ihc =>
    cases u with
    | ternary o' a' b' c' =>
      rw [deBruijn, deBruijn, Nameless.ternary.injEq] at h
      obtain ⟨rfl, ha, hb, hc⟩ := h
      exact .ternary o (iha ha fun x y hx => hσ x y (by simp [mentions, hx]))
        (ihb hb fun x y hx => hσ x y (by simp [mentions, hx]))
        (ihc hc fun x y hx => hσ x y (by simp [mentions, hx]))
    | _ => simp [deBruijn] at h
  | quaternary o a b c d iha ihb ihc ihd =>
    cases u with
    | quaternary o' a' b' c' d' =>
      rw [deBruijn, deBruijn, Nameless.quaternary.injEq] at h
      obtain ⟨rfl, ha, hb, hc, hd⟩ := h
      exact .quaternary o (iha ha fun x y hx => hσ x y (by simp [mentions, hx]))
        (ihb hb fun x y hx => hσ x y (by simp [mentions, hx]))
        (ihc hc fun x y hx => hσ x y (by simp [mentions, hx]))
        (ihd hd fun x y hx => hσ x y (by simp [mentions, hx]))
    | _ => simp [deBruijn] at h
  | indVec l t m b s ihl iht ihm ihb ihs =>
    cases u with
    | indVec l' t' m' b' s' =>
      rw [deBruijn, deBruijn, Nameless.indVec.injEq] at h
      obtain ⟨hl, ht, hm, hb, hs⟩ := h
      exact .indVec (ihl hl fun x y hx => hσ x y (by simp [mentions, hx]))
        (iht ht fun x y hx => hσ x y (by simp [mentions, hx]))
        (ihm hm fun x y hx => hσ x y (by simp [mentions, hx]))
        (ihb hb fun x y hx => hσ x y (by simp [mentions, hx]))
        (ihs hs fun x y hx => hσ x y (by simp [mentions, hx]))
    | _ => simp [deBruijn] at h

end Core

/-! ## Normal forms -/

namespace Context

/-- The normal form of a term at the value of a type. -/
def normalFormAt (E : Engine) (Γ : Context) (T t : Core) : Outcome Core :=
  Γ.evaluate E T >>= Γ.normalForm E t

section Compared

variable {strategy : Strategy} {free : Stop → Prop} {Γ : Context} {T₁ T₂ t₁ t₂ : Core}

/-- Terms with the same de Bruijn form are related by the names in scope. -/
theorem Closes.related_of_deBruijn (h : Γ.Closes t₁) (ht : t₁.deBruijn [] = t₂.deBruijn []) :
    Core.Related (.upTo strategy free) Γ.inScope t₁ t₂ := by
  refine .of_deBruijn (fun _ _ => True.intro) (fun _ => rfl) ht ?_
  intro a b ha hab
  cases hab
  exact ⟨rfl, h a ha⟩

/-- Two runs on terms with the same de Bruijn forms end in corresponding ways, if nothing is
claimed where no name is left. -/
theorem Scoped.normalFormAt_related (hfree : free .overflow)
    (hΓ : Γ.Scoped (.upTo strategy free)) {n m : Nat}
    (hfuels : (Comparison.upTo strategy free).Fuels n m) (hT₁ : Γ.Closes T₁) (ht₁ : Γ.Closes t₁)
    (hT : T₁.deBruijn [] = T₂.deBruijn []) (ht : t₁.deBruijn [] = t₂.deBruijn []) :
    (Comparison.upTo strategy free).Outcomes (Core.Related (.upTo strategy free) Γ.inScope)
      (Γ.normalFormAt ⟨strategy, n⟩ T₁ t₁) (Γ.normalFormAt ⟨strategy, m⟩ T₂ t₂) := by
  have hcontexts : (Worlds.consistentUpTo strategy hfree).Contexts (Γ.world Γ.inScope) Γ Γ :=
    hΓ.contexts_of fun hW => hW
  have hcomparable := Worlds.comparable_upTo hfuels
  refine (hcontexts.evaluate hcomparable (hT₁.related_of_deBruijn hT)).bind
    fun ty₁ ty₂ hty => ?_
  refine (hcontexts.evaluate hcomparable (ht₁.related_of_deBruijn ht)).bind fun v₁ v₂ hv => ?_
  refine (hcontexts.readBackType hcomparable hty).bind fun T T' hT => ?_
  exact (hcontexts.readBack hcomparable hty hv).bind fun u u' hu => .of_ok (.binary .the hT hu)

end Compared

/-! ## Names do not run out -/

/-- The binders of the types of operands have names that do not end in subscript digits. -/
theorem keepsOperands_plain (strategy : Strategy) (overflow : Prop) :
    (Comparison.itself strategy Name.IsPlain overflow).KeepsOperands where
  x := (by decide : Name.IsPlain "x")
  n := (by decide : Name.IsPlain "n")
  previous := (by decide : Name.IsPlain "n-1")
  ih := (by decide : Name.IsPlain "ih")
  e := (by decide : Name.IsPlain "e")
  es := (by decide : Name.IsPlain "es")
  side := (by decide : Name.IsPlain "to")
  k := (by decide : Name.IsPlain "k")
  p := (by decide : Name.IsPlain "p")

/-- Names do not run out while a term is normalized, if no binder has a name that ends in
subscript digits. -/
theorem normalFormAt_ne_overflow {strategy : Strategy} {Γ : Context} {n : Nat}
    (hΓ : Γ.environment.Evaluated strategy Name.IsPlain)
    (hroom : Γ.names.length + n ≤ Name.maxSubscript) {T t : Core} (hT : T.Labelled Name.IsPlain)
    (ht : t.Labelled Name.IsPlain) :
    Γ.normalFormAt ⟨strategy, n⟩ T t ≠ .error .overflow := by
  have hb := keepsOperands_plain strategy False
  have room : Room Name.IsPlain False Γ.names n := Or.inr ⟨fun _ => id, hroom⟩
  have hρ := fun x v hmem => (hΓ x v hmem).itself hb
  have hends : Ends (Stop.Allowed False) (fun _ => True)
      (Γ.normalFormAt ⟨strategy, n⟩ T t) := by
    refine (evaluate_itself hb n hρ hT).bind fun ty hty => (evaluate_itself hb n hρ ht).bind
      fun v hv => ?_
    refine ((readsNormally hb n).type room hty).bind fun _ _ => ?_
    exact ((readsNormally hb n).value room hty hv).bind fun _ _ => .of_ok True.intro
  intro hoverflow
  exact hends.of_eq_error hoverflow rfl

/-- If neither of two runs has run out of names, then one gives a result if the other one
does. -/
theorem exists_ok_of_outcomes {strategy : Strategy} {α β : Type} {R : α → β → Prop}
    {r : Outcome α} {s : Outcome β}
    (h : (Comparison.upTo strategy (Eq .overflow)).Outcomes R r s) (hr : r ≠ .error .overflow)
    (hs : s ≠ .error .overflow) : (∃ a, r = .ok a) ↔ ∃ b, s = .ok b := by
  cases r with
  | ok a =>
    cases s with
    | ok b => exact ⟨fun _ => ⟨b, rfl⟩, fun _ => ⟨a, rfl⟩⟩
    | error e =>
      cases (h : Stop.overflow = e)
      exact (hs rfl).elim
  | error e =>
    cases s with
    | ok b =>
      cases (h : Stop.overflow = e)
      exact (hr rfl).elim
    | error f => exact ⟨nofun, nofun⟩

/-- Normalization does not see bound names. Let two types and two terms be scoped in a context
and have the same de Bruijn forms. If what the context holds has no free names but those in
scope, then their normal forms are equal up to bound names, with whatever fuel they are found.
If moreover no binder of the terms that went into the runs has a name that ends in subscript
digits, then one run gives a normal form if the other one does. The fuel bounds how many binders
read-back can be inside of, and must leave room for their names. -/
theorem normalization_ignores_bound_names (strategy : Strategy) {Γ : Context}
    {T₁ T₂ t₁ t₂ : Core} (hT₁ : Γ.Closes T₁) (ht₁ : Γ.Closes t₁)
    (hT : T₁.deBruijn [] = T₂.deBruijn []) (ht : t₁.deBruijn [] = t₂.deBruijn []) :
    (Γ.Scoped (.upToNames strategy) → ∀ n m u₁ u₂, Γ.normalFormAt ⟨strategy, n⟩ T₁ t₁ = .ok u₁ →
      Γ.normalFormAt ⟨strategy, m⟩ T₂ t₂ = .ok u₂ → u₁.alphaEquivalent u₂ = true) ∧
    (Γ.Scoped (.upTo strategy (Eq .overflow)) → Γ.environment.Evaluated strategy Name.IsPlain →
      (∀ t ∈ [T₁, T₂, t₁, t₂], t.Labelled Name.IsPlain) →
      ∀ n, Γ.names.length + n ≤ Name.maxSubscript →
        ((∃ u₁, Γ.normalFormAt ⟨strategy, n⟩ T₁ t₁ = .ok u₁) ↔
          ∃ u₂, Γ.normalFormAt ⟨strategy, n⟩ T₂ t₂ = .ok u₂)) := by
  refine ⟨?_, ?_⟩
  · intro hΓ n m u₁ u₂ hu₁ hu₂
    have hrelated :=
      hΓ.normalFormAt_related (Or.inl rfl) (Comparison.fuels_upToNames strategy n m)
        hT₁ ht₁ hT ht
    exact (hrelated.of_eq_ok hu₁ hu₂).alphaEquivalent
  · intro hΓ hρ hplain n hroom
    have hrelated := hΓ.normalFormAt_related rfl (Comparison.fuels_refl n) hT₁ ht₁ hT ht
    refine exists_ok_of_outcomes hrelated ?_ ?_
    · exact normalFormAt_ne_overflow hρ hroom (hplain T₁ (by simp)) (hplain t₁ (by simp))
    · exact normalFormAt_ne_overflow hρ hroom (hplain T₂ (by simp)) (hplain t₂ (by simp))

/-- The standard engine leaves room in every context of up to `2 ^ 63` names. -/
example : 2 ^ 63 + Engine.standard.fuel ≤ Name.maxSubscript := by decide

/-- A context with a free number `x`. -/
def withNumber : Context := Context.empty.extendFree "x" .nat

theorem grownFrom_withNumber : withNumber.GrownFrom .onDemand (scopedSource .onDemand) := by
  have hnat : Context.empty.Closes .nat := nofun
  exact .bindFree .empty (.given (Or.inr ⟨1, .nat, hnat, rfl⟩)) rfl

theorem evaluated_withNumber : withNumber.environment.Evaluated .onDemand Name.IsPlain := by
  intro x v hmem
  cases List.mem_singleton.1 hmem
  have hempty : Environment.Evaluated .onDemand Name.IsPlain [] := nofun
  have hplain : Core.nat.Labelled Name.IsPlain := nofun
  have hnat : Core.nat.evaluate .onDemand 1 [] = .ok .nat := rfl
  exact .free "x" (.term hempty hplain hnat)

/-- The successor function, whose parameter gets a subscript if its name is taken by the
context. -/
theorem normalization_ignores_bound_names_successor :
    withNumber.normalFormAt ⟨.onDemand, 6⟩ (.pi "x" .nat .nat) (.lam "x" (.add1 (.var "x"))) =
      .ok (.the (.pi "x₁" .nat .nat) (.lam "x₁" (.add1 (.var "x₁")))) ∧
    (Core.the (.pi "x₁" .nat .nat) (.lam "x₁" (.add1 (.var "x₁")))).alphaEquivalent
      (.the (.pi "z" .nat .nat) (.lam "y" (.add1 (.var "y")))) = true ∧
    ∃ u, withNumber.normalFormAt ⟨.onDemand, 6⟩ (.pi "z" .nat .nat)
      (.lam "y" (.add1 (.var "y"))) = .ok u := by
  have hT₁ : withNumber.Closes (.pi "x" .nat .nat) := by
    intro y hy
    simp [Core.mentions] at hy
  have ht₁ : withNumber.Closes (.lam "x" (.add1 (.var "x"))) := by
    intro y hy
    simp [Core.mentions] at hy
  have hT : (Core.pi "x" .nat .nat).deBruijn [] = (Core.pi "z" .nat .nat).deBruijn [] := rfl
  have ht : (Core.lam "x" (.add1 (.var "x"))).deBruijn [] =
      (Core.lam "y" (.add1 (.var "y"))).deBruijn [] := rfl
  have hplain : Name.IsPlain "x" ∧ Name.IsPlain "y" ∧ Name.IsPlain "z" := by decide
  have h := normalization_ignores_bound_names .onDemand hT₁ ht₁ hT ht
  have hnames := h.1 (grownFrom_withNumber.scoped (Or.inl rfl))
  have hends := h.2 (grownFrom_withNumber.scoped rfl) evaluated_withNumber
  refine ⟨rfl, hnames 6 7 _ _ rfl rfl, (hends ?_ 6 (by decide)).1 ⟨_, rfl⟩⟩
  simp [Core.Labelled, Core.Everywhere, Core.binder?, hplain]

/-- A context that defines `x` as a number `y` that is not in scope. -/
def withStrayName : Context := Context.empty.define "x" .nat (.var "y" .nat)

/-- A name that a context holds but does not have in scope can be captured: a constant function
has a constant function or the identity as its normal form, depending on the name of its
parameter. -/
theorem stray_name_captured :
    withStrayName.Closes (.pi "a" .nat .nat) ∧ withStrayName.Closes (.lam "z" (.var "x")) ∧
    (Core.lam "z" (.var "x")).deBruijn [] = (Core.lam "y" (.var "x")).deBruijn [] ∧
    withStrayName.normalFormAt ⟨.onDemand, 6⟩ (.pi "a" .nat .nat) (.lam "z" (.var "x")) =
      .ok (.the (.pi "a" .nat .nat) (.lam "z" (.var "y"))) ∧
    withStrayName.normalFormAt ⟨.onDemand, 6⟩ (.pi "a" .nat .nat) (.lam "y" (.var "x")) =
      .ok (.the (.pi "a" .nat .nat) (.lam "y" (.var "y"))) ∧
    (Core.the (.pi "a" .nat .nat) (.lam "z" (.var "y"))).alphaEquivalent
      (.the (.pi "a" .nat .nat) (.lam "y" (.var "y"))) = false := by
  refine ⟨?_, ?_, rfl, rfl, rfl, by decide⟩
  · intro y hy
    simp [Core.mentions] at hy
  · intro y hy
    simp [Core.mentions] at hy
    obtain rfl := hy.2
    decide

end Context

end PieChecker
