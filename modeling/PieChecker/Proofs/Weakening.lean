import PieChecker.Proofs.Congruence
import PieChecker.Proofs.FreeNames
import PieChecker.Proofs.Reachable

set_option autoImplicit false

/-!
# Weakening

Read-back takes no more from a context than the names in use, which the binders of the term that
it gives must avoid. In a larger context it may have to choose other names for them, and then it
applies functions and families of types to other variables. What it gives is the same up to
bound names, as long as the value has no free names but those of the smaller context. So the
larger context finds the same values equal.
-/

namespace PieChecker

open Likeness

/-! ## Larger contexts -/

namespace Context

/-- The contexts that arise from a context by claiming, binding and defining names. A claim or a
definition may be of a name that the context has already. -/
inductive Extends (Γ : Context) : Context → Prop where
  | refl : Extends Γ Γ
  | claim {Δ : Context} (h : Extends Γ Δ) (x : String) (ty : Value) : Extends Γ (Δ.claim x ty)
  | bindFree {Δ Δ' : Context} (h : Extends Γ Δ) {x : String} {ty : Value}
      (hΔ : Δ.bindFree x ty = .ok Δ') :
    Extends Γ Δ'
  | define {Δ : Context} (h : Extends Γ Δ) (x : String) (ty v : Value) :
      Extends Γ (Δ.define x ty v)

/-- The free names of a value are bound in the context. -/
def Binds (Γ : Context) (v : Value) : Prop := ∀ y, v.Mentions y → y ∈ Γ.names

/-- The names of a context, each standing for itself. -/
def ownNames (Γ : Context) : NameRelation := fun a b => a = b ∧ a ∈ Γ.names

variable {Γ Γ' : Context}

theorem Extends.names_subset (h : Γ.Extends Γ') : Γ.names ⊆ Γ'.names := by
  induction h with
  | refl => exact List.Subset.refl _
  | claim _ x ty ih => exact List.subset_cons_of_subset x ih
  | @bindFree Δ Δ' _ x ty hΔ ih =>
    unfold Context.bindFree at hΔ
    split at hΔ
    · cases hΔ
    · cases hΔ
      exact List.subset_cons_of_subset x ih
  | define _ x ty v ih => exact List.subset_cons_of_subset x ih

theorem Binds.within {v : Value} (h : Γ.Binds v) : v.Within Γ.ownNames := by
  intro y hy
  exact ⟨rfl, h y hy⟩

end Context

/-! ## Reading back in two contexts -/

/-- The comparison of two runs that start from the same values in different contexts. -/
def Comparison.acrossContexts (strategy : Strategy) : Comparison :=
  { Comparison.upToNames strategy with
    agreed := fun _ => True
    agreed_broken := True.intro
    agreed_exhausted := True.intro
    anyOperand := True }

theorem Comparison.acrossContexts_isReflexive (strategy : Strategy) :
    (acrossContexts strategy).IsReflexive :=
  ⟨fun _ => True.intro, fun _ => rfl, fun _ => True.intro, True.intro⟩

/-- Terms with the free names of a context that are related are equal up to bound names. -/
theorem Core.Related.alphaEquivalent_acrossContexts {strategy : Strategy} {Γ : Context}
    {t t' : Core} (h : Core.Related (.acrossContexts strategy) Γ.ownNames t t') :
    t.alphaEquivalent t' = true := by
  refine h.alphaEquivalentUnder_eq_true (fun _ _ => id) ?_
  rintro a _ ⟨rfl, _⟩
  simp [Core.sameVariable]

namespace Context

variable {Γ Γ' : Context}

theorem Extends.consistent (h : Γ.Extends Γ') :
    World.Consistent ⟨Γ.names, Γ'.names, Γ.ownNames⟩ where
  mem := by
    rintro a _ ⟨rfl, ha⟩
    exact ⟨ha, h.names_subset ha⟩
  biunique := by
    rintro a a' _ _ ⟨rfl, _⟩ ⟨rfl, _⟩
    exact Iff.rfl

/-- Read-back takes what is alike in the two contexts to related terms, with whatever fuel. -/
theorem reads_acrossContexts (strategy : Strategy) (n m : Nat) :
    Reads (K := .acrossContexts strategy)
      (.anyConsistent (fun _ _ => True.intro) (Or.inl rfl) (Or.inl rfl)) n m :=
  reads (fun _ => True.intro) _ (Comparison.fuels_upToNames strategy n m)

section ReadBack

variable {strategy : Strategy} {n m : Nat} {T v : Value} {t t' : Core} (h : Γ.Extends Γ')

include h

/-- A value is read back to the same term, up to bound names, in a larger context. -/
theorem Extends.readBack_alphaEquivalent (hT : Γ.Binds T) (hv : Γ.Binds v)
    (ht : Γ.readBack ⟨strategy, n⟩ T v = .ok t) (ht' : Γ'.readBack ⟨strategy, m⟩ T v = .ok t') :
    t.alphaEquivalent t' = true := by
  have hK := Comparison.acrossContexts_isReflexive strategy
  have hread := (reads_acrossContexts strategy n m).value h.consistent (hT.within.itself hK)
    (hv.within.itself hK)
  exact (hread.of_eq_ok ht ht').alphaEquivalent_acrossContexts

/-- So is a type. -/
theorem Extends.readBackType_alphaEquivalent (hT : Γ.Binds T)
    (ht : Γ.readBackType ⟨strategy, n⟩ T = .ok t)
    (ht' : Γ'.readBackType ⟨strategy, m⟩ T = .ok t') : t.alphaEquivalent t' = true := by
  have hK := Comparison.acrossContexts_isReflexive strategy
  have hread := (reads_acrossContexts strategy n m).type h.consistent (hT.within.itself hK)
  exact (hread.of_eq_ok ht ht').alphaEquivalent_acrossContexts

end ReadBack

/-- Whether two things are read as terms that are equal up to bound names does not depend on
which of two ways they are read in, if both give terms and these are equal up to bound names. -/
theorem exists_alphaEquivalent_iff {r r' s s' : Outcome Core}
    (hr : ∃ t t', r = .ok t ∧ r' = .ok t' ∧ t.alphaEquivalent t' = true)
    (hs : ∃ u u', s = .ok u ∧ s' = .ok u' ∧ u.alphaEquivalent u' = true) :
    (∃ t u, r = .ok t ∧ s = .ok u ∧ t.alphaEquivalent u = true) ↔
      ∃ t u, r' = .ok t ∧ s' = .ok u ∧ t.alphaEquivalent u = true := by
  obtain ⟨t, t', rfl, rfl, ht⟩ := hr
  obtain ⟨u, u', rfl, rfl, hu⟩ := hs
  constructor
  · rintro ⟨_, _, ⟨⟩, ⟨⟩, htu⟩
    have htu' := Core.alphaEquivalent_trans (Core.alphaEquivalent_symm ht)
      (Core.alphaEquivalent_trans htu hu)
    exact ⟨t', u', rfl, rfl, htu'⟩
  · rintro ⟨_, _, ⟨⟩, ⟨⟩, htu⟩
    have htu' := Core.alphaEquivalent_trans ht
      (Core.alphaEquivalent_trans htu (Core.alphaEquivalent_symm hu))
    exact ⟨t, u, rfl, rfl, htu'⟩

/-- Read-back is stable under weakening. In a context and in a larger one, a type and a value
whose free names are bound in the smaller context are read back to terms that are equal up to
bound names, and so are types. Hence, where read-back returns, the two contexts find the same
values and the same types equal. -/
theorem Extends.readBack_stable (h : Γ.Extends Γ') (strategy : Strategy) (n m : Nat) :
    (∀ T v t t', Γ.Binds T → Γ.Binds v → Γ.readBack ⟨strategy, n⟩ T v = .ok t →
      Γ'.readBack ⟨strategy, m⟩ T v = .ok t' → t.alphaEquivalent t' = true) ∧
    (∀ T t t', Γ.Binds T → Γ.readBackType ⟨strategy, n⟩ T = .ok t →
      Γ'.readBackType ⟨strategy, m⟩ T = .ok t' → t.alphaEquivalent t' = true) ∧
    (∀ T l r, Γ.Binds T → Γ.Binds l → Γ.Binds r →
      (∀ v ∈ [l, r], (∃ t, Γ.readBack ⟨strategy, n⟩ T v = .ok t) ∧
        ∃ t, Γ'.readBack ⟨strategy, m⟩ T v = .ok t) →
      (Γ.convert ⟨strategy, n⟩ T l r = .ok () ↔ Γ'.convert ⟨strategy, m⟩ T l r = .ok ())) ∧
    (∀ l r, Γ.Binds l → Γ.Binds r →
      (∀ T ∈ [l, r], (∃ t, Γ.readBackType ⟨strategy, n⟩ T = .ok t) ∧
        ∃ t, Γ'.readBackType ⟨strategy, m⟩ T = .ok t) →
      (Γ.sameType ⟨strategy, n⟩ l r = .ok () ↔ Γ'.sameType ⟨strategy, m⟩ l r = .ok ())) := by
  refine ⟨?_, ?_, ?_, ?_⟩
  · intro T v t t' hT hv ht ht'
    exact h.readBack_alphaEquivalent hT hv ht ht'
  · intro T t t' hT ht ht'
    exact h.readBackType_alphaEquivalent hT ht ht'
  · intro T l r hT hl hr hreads
    obtain ⟨⟨t, ht⟩, t', ht'⟩ := hreads l (.head _)
    obtain ⟨⟨u, hu⟩, u', hu'⟩ := hreads r (.tail _ (.head _))
    rw [convert_eq_ok_iff, convert_eq_ok_iff]
    exact exists_alphaEquivalent_iff ⟨t, t', ht, ht', h.readBack_alphaEquivalent hT hl ht ht'⟩
      ⟨u, u', hu, hu', h.readBack_alphaEquivalent hT hr hu hu'⟩
  · intro l r hl hr hreads
    obtain ⟨⟨t, ht⟩, t', ht'⟩ := hreads l (.head _)
    obtain ⟨⟨u, hu⟩, u', hu'⟩ := hreads r (.tail _ (.head _))
    rw [sameType_eq_ok_iff, sameType_eq_ok_iff]
    exact exists_alphaEquivalent_iff ⟨t, t', ht, ht', h.readBackType_alphaEquivalent hl ht ht'⟩
      ⟨u, u', hu, hu', h.readBackType_alphaEquivalent hr hu hu'⟩

/-- A context with a free number `x`, and a larger one with a free number `y`. -/
def oneNumber : Context := Context.empty.extendFree "x" .nat

def twoNumbers : Context := (oneNumber.claim "f" .univ).extendFree "y" .nat

/-- The function that gives the successor of `x` for every number, whose parameter is called
`y`. -/
def successorOfX : Value := .lam "y" (.captured oneNumber.environment "y" (.add1 (.var "x")))

theorem extends_twoNumbers : oneNumber.Extends twoNumbers := by
  have hbind : (oneNumber.claim "f" .univ).bindFree "y" .nat = .ok twoNumbers := rfl
  exact .bindFree (.claim .refl "f" .univ) hbind

theorem binds_arrow : oneNumber.Binds (.arrow "y" .nat .nat) := by
  intro z hz
  cases hz with
  | part ha h =>
    rw [List.mem_singleton.1 ha] at h
    exact (Value.not_mentions_const z .nat h).elim
  | family hfamily =>
    cases hfamily with
    | part ha h =>
      rw [List.mem_singleton.1 ha] at h
      exact (Value.not_mentions_const z .nat h).elim

theorem binds_successorOfX : oneNumber.Binds successorOfX := by
  intro z hz
  cases hz with
  | part ha => cases ha
  | body hbody =>
    cases hbody with
    | part ha => cases ha
    | captured _ hmentions hlookup h =>
      obtain rfl : "x" = _ := of_decide_eq_true hmentions
      cases hlookup
      rcases Value.mentions_var_iff.1 h with rfl | h
      · exact .head _
      · exact (Value.not_mentions_const z .nat h).elim

/-- In the larger context the parameter gets another name. -/
theorem readBack_stable_successorOfX :
    oneNumber.Extends twoNumbers ∧ oneNumber.Binds (.arrow "y" .nat .nat) ∧
    oneNumber.Binds successorOfX ∧
    oneNumber.readBack ⟨.onDemand, 5⟩ (.arrow "y" .nat .nat) successorOfX =
      .ok (.lam "y" (.add1 (.var "x"))) ∧
    twoNumbers.readBack ⟨.onDemand, 6⟩ (.arrow "y" .nat .nat) successorOfX =
      .ok (.lam "y₁" (.add1 (.var "x"))) ∧
    (Core.lam "y" (.add1 (.var "x"))).alphaEquivalent (.lam "y₁" (.add1 (.var "x"))) = true :=
  ⟨extends_twoNumbers, binds_arrow, binds_successorOfX, rfl, rfl,
    (extends_twoNumbers.readBack_stable .onDemand 5 6).1 _ _ _ _ binds_arrow
      binds_successorOfX rfl rfl⟩

end Context

end PieChecker
