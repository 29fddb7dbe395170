import PieChecker.Proofs.LexicalRules
import PieChecker.Proofs.Reachable

set_option autoImplicit false

/-!
# Lexical scoping

The names of the binders in an expression do not matter: expressions that are renamings of each
other are elaborated to terms that are equal up to bound names, or they are rejected at the same
place and for the same kind of reason. A name means the innermost binder of that name that the
program writes, and otherwise what it means in the context.
-/

namespace PieChecker

/-! ## Corresponding results -/

/-- Are two causes of the same kind? They may differ in the names and the terms that they
show. -/
def Cause.sameKind : Cause → Cause → Bool
  | unboundVariable _, unboundVariable _ => true
  | duplicateBinding _, duplicateBinding _ => true
  | typeMismatch _ _, typeMismatch _ _ => true
  | notTheSame _ _ _, notTheSame _ _ _ => true
  | expectedFormer former _, expectedFormer former' _ => former = former'
  | illTypedMotive _ cause, illTypedMotive _ cause' => cause.sameKind cause'
  | cannotSynthesize, cannotSynthesize => true
  | notAType _, notAType _ => true
  | universeHasNoType, universeHasNoType => true
  | numeralTooLarge n, numeralTooLarge n' => n = n'
  | vecLengthMismatch shape _, vecLengthMismatch shape' _ => shape = shape'
  | alreadyDefined _, alreadyDefined _ => true
  | notClaimed _, notClaimed _ => true
  | _, _ => false

/-- Two runs of the checker end in the same way: with rejections of the same kind at the same
place, or with the same stop. -/
inductive Interrupt.Same : Interrupt TypeError → Interrupt TypeError → Prop where
  | rejected {e e' : TypeError} (hspan : e.span = e'.span)
      (hcause : e.cause.sameKind e'.cause = true) :
    Same (.rejected e) (.rejected e')
  | stopped (s : Stop) : Same (.stopped s) (.stopped s)

/-- Two results of checking correspond: both are accepted, with results that correspond, or both
runs end in the same way. Nothing is said if a run has no name or no fuel left. -/
abbrev Checked.Corresponds {α β : Type} (R : α → β → Prop) : Checked α → Checked β → Prop :=
  Compared (Interrupt.IsFree Stop.IsLimit) (Interrupt.IsFree Stop.IsLimit) Interrupt.Same R

namespace Worlds

variable {K : Comparison} {𝒲 : Worlds K}

theorem Causes.sameKind {c c' : Cause} (h : 𝒲.Causes c c') : c.sameKind c' = true := by
  induction h with
  | illTypedMotive _ _ _ ih => exact ih
  | expectedFormer | numeralTooLarge | vecLengthMismatch => simp [Cause.sameKind]
  | _ => rfl

/-- Runs that are compared up to names end in the same way. -/
theorem Checked.corresponds {strategy : Strategy} {𝒲 : Worlds (.upToNames strategy)}
    {α β : Type} {R S : α → β → Prop} {r : PieChecker.Checked α} {r' : PieChecker.Checked β}
    (h : 𝒲.Checked R r r') (imp : ∀ a b, R a b → S a b) : Checked.Corresponds S r r' := by
  refine (h.mono imp).mono_errors ?_
  rintro e e' (⟨hspan, hcause⟩ | _)
  · exact .rejected hspan hcause.sameKind
  · exact .stopped _

end Worlds

/-- Terms that are related by the names in scope are equal up to bound names. -/
theorem Core.Related.alphaEquivalent {strategy : Strategy} {Γ : Context} {t t' : Core}
    (h : Core.Related (.upToNames strategy) Γ.inScope t t') : t.alphaEquivalent t' = true := by
  refine h.alphaEquivalentUnder_eq_true (fun _ _ => id) ?_
  rintro a _ ⟨rfl, _⟩
  simp [Core.sameVariable]

/-! ## Scoping -/

namespace Context

/-- Elaboration in a reachable context is lexically scoped. Renamed expressions are elaborated
in corresponding ways, to terms and types that are equal up to bound names; and elaboration is
the same as with references that mean the innermost binder of their name that the program
writes, or else what they mean in the context. -/
theorem Reachable.lexical_scoping {strategy : Strategy} {Γ : Context}
    (hΓ : Γ.Reachable strategy) {e e' : Surface.Expr}
    (he : Surface.Expr.Renamed Eq (fun _ _ => True) Eq e e') (n m : Nat) :
    Checked.Corresponds
      (fun p p' => p.1.alphaEquivalent p'.1 = true ∧
        ∀ k l, Compared Stop.IsLimit Stop.IsLimit Eq (fun t t' => t.alphaEquivalent t' = true)
          (Γ.readBackType ⟨strategy, k⟩ p.2) (Γ.readBackType ⟨strategy, l⟩ p'.2))
      (Γ.synthesize ⟨strategy, n⟩ e) (Γ.synthesize ⟨strategy, m⟩ e') ∧
    Checked.Corresponds (fun t t' => t.alphaEquivalent t' = true)
      (Γ.isType ⟨strategy, n⟩ e) (Γ.isType ⟨strategy, m⟩ e') ∧
    (∀ ty, Γ.Elaborated strategy ty →
      Checked.Corresponds (fun t t' => t.alphaEquivalent t' = true) (Γ.check ⟨strategy, n⟩ e ty)
        (Γ.check ⟨strategy, m⟩ e' ty)) ∧
    (∀ E : Engine, Rules.AgreeAt (.ofContext Γ) (e.rules E) (e.lexicalRules E Γ)) := by
  have h : Γ.Scoped (.upToNames strategy) := hΓ.scoped
  have hread := h.readings n m he
  refine ⟨hread.synthesize.corresponds fun p p' hp => ⟨hp.1.alphaEquivalent, fun k l => ?_⟩,
    hread.isType.corresponds fun t t' ht => ht.alphaEquivalent,
    fun ty hty => (hread.check (h.elaborated hty)).corresponds fun t t' ht =>
      ht.alphaEquivalent,
    fun E => (Surface.Expr.rules_agree E Γ e).rules (Scope.lexical_ofContext Γ _)⟩
  have hback := h.contexts.readBackType (Worlds.comparable_upToNames strategy k l) hp.2
  exact (hback.mono fun t t' ht => ht.alphaEquivalent).mono_errors fun s s' hs => hs.1

end Context

/-- The identity function on the elements of any type, with the given names for its two
parameters. -/
def Surface.Expr.identity (a x : String) : Surface.Expr :=
  .binary ⟨0, 39⟩ .the
    (.quant ⟨5, 24⟩ .pi [(⟨⟨9, 10⟩, a⟩, .const ⟨11, 12⟩ .univ)]
      (.arrow ⟨15, 23⟩ (.var ⟨18, 19⟩ a) [.var ⟨20, 21⟩ a]))
    (.lambda ⟨25, 38⟩ [⟨⟨28, 29⟩, a⟩, ⟨⟨30, 31⟩, x⟩] (.var ⟨33, 34⟩ x))

/-- Its parameters may have any two names. -/
theorem Surface.Expr.identity_renamed (a x b y : String) :
    Renamed Eq (fun _ _ => True) Eq (identity a x) (identity b y) := by
  have hvar : NameRelation.push Eq a b a b := Or.inl ⟨rfl, rfl⟩
  refine .binary rfl .the (.quant rfl .pi (.cons rfl True.intro (.const rfl .univ) (.nil ?_)))
    (.lambda rfl (.cons rfl True.intro
      (.cons rfl True.intro (.nil (.var rfl (Or.inl ⟨rfl, rfl⟩))))))
  exact .arrow rfl (.var rfl hvar) (.cons (.var rfl hvar) .nil)

/-- The second expression names its type `x`, so that the binder of the arrow below must not be
called `x`. -/
theorem Context.lexical_scoping_identity :
    (empty.synthesize ⟨.onDemand, 20⟩ (.identity "A" "x")).map Prod.fst =
      .ok (.the (.pi "A" .univ (.pi "x" (.var "A") (.var "A")))
        (.lam "A" (.lam "x" (.var "x")))) ∧
    (empty.synthesize ⟨.onDemand, 20⟩ (.identity "x" "A")).map Prod.fst =
      .ok (.the (.pi "x" .univ (.pi "x₁" (.var "x") (.var "x")))
        (.lam "x" (.lam "A" (.var "A")))) ∧
    Checked.Corresponds (fun p p' => p.1.alphaEquivalent p'.1 = true)
      (empty.synthesize ⟨.onDemand, 20⟩ (.identity "A" "x"))
      (empty.synthesize ⟨.onDemand, 20⟩ (.identity "x" "A")) :=
  ⟨rfl, rfl, (Reachable.empty.lexical_scoping (Surface.Expr.identity_renamed "A" "x" "x" "A")
    20 20).1.mono
    fun _ _ h => h.1⟩

end PieChecker
