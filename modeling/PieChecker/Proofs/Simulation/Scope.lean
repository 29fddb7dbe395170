import PieChecker.Proofs.Simulation.Alpha
import PieChecker.Proofs.Simulation.ReadBack
import PieChecker.Typing.Scope

set_option autoImplicit false

/-!
# Checking in corresponding scopes

Two runs of the checker correspond if both accept with results that correspond, both reject at
spans that stand for each other and for causes of the same kind, or both stop. This holds of
everything that the checker does with a context: evaluating, reading back and comparing values.

Scopes correspond if the references in them do. A binder that the program writes changes the
meaning of its own name and of no other; a binder that elaboration introduces changes the
meaning of none but the name it is given.
-/

namespace PieChecker

/-! ## Results of checking -/

/-- An interrupt of checking after which nothing is claimed. -/
def Interrupt.IsFree {ε : Type} (free : Stop → Prop) : Interrupt ε → Prop
  | .rejected _ => False
  | .stopped s => free s

namespace Comparison

variable (K : Comparison)

/-- Two interrupts correspond. -/
inductive Interrupts {ε δ : Type} (reasons : ε → δ → Prop) :
    Interrupt ε → Interrupt δ → Prop where
  | rejected {r : ε} {r' : δ} (h : reasons r r') :
      Interrupts reasons (.rejected r) (.rejected r')
  | stopped {s : Stop} (h : K.agreed s) : Interrupts reasons (.stopped s) (.stopped s)

/-- Two results of checking correspond. -/
abbrev Checks {ε δ α β : Type} (reasons : ε → δ → Prop) (R : α → β → Prop) :
    Except (Interrupt ε) α → Except (Interrupt δ) β → Prop :=
  Compared (Interrupt.IsFree K.leftFree) (Interrupt.IsFree K.rightFree) (K.Interrupts reasons) R

variable {K}

/-- Outcomes that correspond still do so where rejections are possible. -/
theorem lift {ε δ α β : Type} {reasons : ε → δ → Prop} {R : α → β → Prop} {r : Outcome α}
    {s : Outcome β} (h : K.Outcomes R r s) : K.Checks reasons R r.unrejected s.unrejected := by
  cases r with
  | ok a =>
    cases s with
    | ok b => exact h
    | error f => exact h
  | error e =>
    cases s with
    | ok b => exact h
    | error f =>
      rcases h with h | h | ⟨rfl, h⟩
      · exact Or.inl h
      · exact Or.inr (Or.inl h)
      · exact Or.inr (Or.inr (.stopped h))

theorem rejected {ε δ α β : Type} {reasons : ε → δ → Prop} {R : α → β → Prop} {r : ε} {r' : δ}
    (h : reasons r r') :
    K.Checks reasons R (.error (.rejected r) : Except (Interrupt ε) α)
      (.error (.rejected r') : Except (Interrupt δ) β) :=
  Compared.of_errors (.rejected h)

end Comparison

namespace Worlds

variable {K : Comparison}

/-- Two causes of rejection are of the same kind, and the terms that they show are related in
some world. -/
inductive Causes (𝒲 : Worlds K) : Cause → Cause → Prop where
  | unboundVariable {x y : String} (h : K.binder x y) :
      Causes 𝒲 (.unboundVariable x) (.unboundVariable y)
  | typeMismatch {W : World} (hW : 𝒲.admits W) {t t' u u' : Core}
      (ht : Core.Related K W.var t t')
    (hu : Core.Related K W.var u u') : Causes 𝒲 (.typeMismatch t u) (.typeMismatch t' u')
  | notTheSame {W : World} (hW : 𝒲.admits W) {ty ty' t t' u u' : Core}
      (hty : Core.Related K W.var ty ty')
    (ht : Core.Related K W.var t t') (hu : Core.Related K W.var u u') :
    Causes 𝒲 (.notTheSame ty t u) (.notTheSame ty' t' u')
  | expectedFormer {W : World} (hW : 𝒲.admits W) (former : Former) {t t' : Core}
      (ht : Core.Related K W.var t t') :
    Causes 𝒲 (.expectedFormer former t) (.expectedFormer former t')
  | illTypedMotive {W : World} (hW : 𝒲.admits W) {t t' : Core} (ht : Core.Related K W.var t t')
      {c c' : Cause}
    (hc : Causes 𝒲 c c') : Causes 𝒲 (.illTypedMotive t c) (.illTypedMotive t' c')
  | cannotSynthesize : Causes 𝒲 .cannotSynthesize .cannotSynthesize
  | notAType {W : World} (hW : 𝒲.admits W) {t t' : Core} (ht : Core.Related K W.var t t') :
    Causes 𝒲 (.notAType t) (.notAType t')
  | universeHasNoType : Causes 𝒲 .universeHasNoType .universeHasNoType
  | numeralTooLarge (n : Nat) : Causes 𝒲 (.numeralTooLarge n) (.numeralTooLarge n)
  | vecLengthMismatch {W : World} (hW : 𝒲.admits W) (shape : LengthShape) {t t' : Core}
    (ht : Core.Related K W.var t t') :
    Causes 𝒲 (.vecLengthMismatch shape t) (.vecLengthMismatch shape t')

/-- Two rejections are at spans that stand for each other and for corresponding causes. -/
structure Errors (𝒲 : Worlds K) (e e' : TypeError) : Prop where
  span : K.span e.span e'.span
  cause : 𝒲.Causes e.cause e'.cause

/-- Two results of checking correspond. -/
abbrev Checked (𝒲 : Worlds K) {α β : Type} (R : α → β → Prop) :
    PieChecker.Checked α → PieChecker.Checked β → Prop :=
  K.Checks 𝒲.Errors R

variable {𝒲 : Worlds K}

theorem reject {α β : Type} {R : α → β → Prop} {s s' : Span} (hs : K.span s s') {c c' : Cause}
    (hc : 𝒲.Causes c c') : 𝒲.Checked R (PieChecker.reject s c : PieChecker.Checked α)
      (PieChecker.reject s' c') :=
  Comparison.rejected ⟨hs, hc⟩

theorem locate {α β : Type} {R : α → β → Prop} {s s' : Span} (hs : K.span s s')
    {r : Except (Interrupt Cause) α} {r' : Except (Interrupt Cause) β}
    (h : K.Checks 𝒲.Causes R r r') :
    𝒲.Checked R (PieChecker.locate s r) (PieChecker.locate s' r') := by
  cases r with
  | ok a =>
    cases r' with
    | ok b => exact h
    | error f => cases f <;> exact h
  | error e =>
    cases r' with
    | ok b => cases e <;> exact h
    | error f =>
      rcases h with h | h | h
      · cases e with
        | rejected => exact h.elim
        | stopped => exact Or.inl h
      · cases f with
        | rejected => exact h.elim
        | stopped => exact Or.inr (Or.inl h)
      · cases h with
        | rejected h => exact Comparison.rejected ⟨hs, h⟩
        | stopped h => exact Compared.of_errors (.stopped h)

theorem locateError {α β : Type} {R : α → β → Prop} {s s' : Span} (hs : K.span s s')
    {r : Except Cause α} {r' : Except Cause β}
    (h : Compared (fun _ => False) (fun _ => False) 𝒲.Causes R r r') :
    𝒲.Checked R (PieChecker.locateError s r) (PieChecker.locateError s' r') := by
  cases r with
  | ok a =>
    cases r' with
    | ok b => exact h
    | error f => exact h.elim
  | error e =>
    cases r' with
    | ok b => exact h.elim
    | error f =>
      rcases h with h | h | h
      · exact h.elim
      · exact h.elim
      · exact Comparison.rejected ⟨hs, h⟩

end Worlds

/-! ## Contexts -/

/-- A world with the names in scope that stand for each other. All free names of values are in
scope, but a name in scope that has a definition need not be free in any value. -/
structure ScopedWorld extends World where
  scope : NameRelation

namespace ScopedWorld

/-- The world below a binder that the two runs give the names `y` and `z`. -/
def push (W : ScopedWorld) (y z : String) : ScopedWorld :=
  ⟨W.toWorld.push y z, W.scope.push y z⟩

/-- Free names are in scope, and names in scope are in use. -/
structure WellFormed (W : ScopedWorld) : Prop where
  scope : ∀ a b, W.var a b → W.scope a b
  mem : ∀ a b, W.scope a b → a ∈ W.left ∧ b ∈ W.right

variable {W : ScopedWorld}

theorem WellFormed.push (h : W.WellFormed) (y z : String) : (W.push y z).WellFormed where
  scope := by
    rintro a b (hab | ⟨ha, hb, hab⟩)
    · exact Or.inl hab
    · exact Or.inr ⟨ha, hb, h.scope a b hab⟩
  mem := by
    rintro a b (⟨rfl, rfl⟩ | ⟨_, _, hab⟩)
    · exact ⟨List.mem_cons_self, List.mem_cons_self⟩
    · exact ⟨List.mem_cons_of_mem _ (h.mem a b hab).1, List.mem_cons_of_mem _ (h.mem a b hab).2⟩

/-- What is in scope above a binder with new names still is so below it. -/
theorem WellFormed.scope_push (h : W.WellFormed) {y z : String} (hy : y ∉ W.left)
    (hz : z ∉ W.right) :
    ∀ a b, W.scope a b → (W.push y z).scope a b :=
  fun a b hab => Or.inr ⟨fun ha => hy (ha ▸ (h.mem a b hab).1), fun hb =>
    hz (hb ▸ (h.mem a b hab).2), hab⟩

end ScopedWorld

namespace Worlds

variable {K : Comparison}

/-- Two contexts use the names of a world, and their environments have values that are equal up
to names. -/
structure Contexts (𝒲 : Worlds K) (W : ScopedWorld) (Γ Γ' : Context) : Prop where
  admits : 𝒲.admits W.toWorld
  wellFormed : W.WellFormed
  left : Γ.names = W.left
  right : Γ'.names = W.right
  environments : (Likeness.renamed K W.var).Environments W.scope Γ.environment Γ'.environment

/-- What the comparison of two runs of the checker asks for, apart from what evaluation does. -/
structure Comparable (K : Comparison) (n m : Nat) : Prop where
  fuels : K.Fuels n m
  binder : ∀ x, K.binder x x
  /-- A span stands for at most one other. -/
  span : ∀ s s' t t', K.span s s' → K.span t t' → (s = t ↔ s' = t')

theorem Comparable.operands {K : Comparison} {n m : Nat} (hK : Comparable K n m) :
    K.KeepsOperands :=
  .of_forall hK.binder

end Worlds

namespace Comparison

variable (K : Comparison)

/-- The engines of the two runs, with the given fuel. -/
abbrev leftEngine (n : Nat) : Engine := ⟨K.left, n⟩
abbrev rightEngine (m : Nat) : Engine := ⟨K.right, m⟩

end Comparison

namespace Worlds.Contexts

open Likeness

variable {K : Comparison} {𝒲 : Worlds K} {n m : Nat} (hK : Comparable K n m)

include hK

/-- Functions that are equal up to names are applied. -/
theorem apply {W : World} {f f' a a' : Value} (hf : (renamed K W.var).value f f')
    (ha : (renamed K W.var).value a a') :
    K.Outcomes (renamed K W.var).value ((K.leftEngine n).apply f a)
      ((K.rightEngine m).apply f' a') :=
  (renamed_evaluates hK.binder hK.fuels).2.apply hf ha

theorem run {W : World} {c c' : Closure} {a a' : Value} (hc : (renamed K W.var).closure c c')
    (ha : (renamed K W.var).value a a') :
    K.Outcomes (renamed K W.var).value ((K.leftEngine n).run c a)
      ((K.rightEngine m).run c' a') :=
  (renamed_evaluates hK.binder hK.fuels).2.run hc ha

variable {W : ScopedWorld} {Γ Γ' : Context} (h : 𝒲.Contexts W Γ Γ')

include h

theorem evaluate {t t' : Core} (ht : Core.Related K W.scope t t') :
    K.Outcomes (renamed K W.var).value (Γ.evaluate (K.leftEngine n) t)
      (Γ'.evaluate (K.rightEngine m) t') :=
  (renamed_evaluates hK.binder hK.fuels).1 h.environments ht

theorem readBack {T T' v v' : Value} (hT : (renamed K W.var).value T T')
    (hv : (renamed K W.var).value v v') :
    K.Outcomes (Core.Related K W.var) (Γ.readBack (K.leftEngine n) T v)
      (Γ'.readBack (K.rightEngine m) T' v') := by
  rw [Context.readBack, Context.readBack, h.left, h.right]
  exact (reads hK.binder 𝒲 hK.fuels).value h.admits hT hv

theorem readBackType {T T' : Value} (hT : (renamed K W.var).value T T') :
    K.Outcomes (Core.Related K W.var) (Γ.readBackType (K.leftEngine n) T)
      (Γ'.readBackType (K.rightEngine m) T') := by
  rw [Context.readBackType, Context.readBackType, h.left, h.right]
  exact (reads hK.binder 𝒲 hK.fuels).type h.admits hT

/-- What is read back may stand where terms in scope do. -/
theorem readBackType_scope {T T' : Value} (hT : (renamed K W.var).value T T') :
    K.Outcomes (Core.Related K W.scope) (Γ.readBackType (K.leftEngine n) T)
      (Γ'.readBackType (K.rightEngine m) T') :=
  (h.readBackType hK hT).mono fun _ _ ht => ht.mono h.wellFormed.scope

/-- The two runs find the same terms equal up to bound names. -/
theorem alphaEquivalent_eq {t t' u u' : Core} (ht : Core.Related K W.var t t')
    (hu : Core.Related K W.var u u') :
    t.alphaEquivalent u = t'.alphaEquivalent u' := by
  refine ht.alphaEquivalentUnder_congr hK.span hu fun a a' b b' haa hbb => ?_
  have hiff : a = b ↔ a' = b' := 𝒲.biunique h.admits haa hbb
  simp [Core.sameVariable, hiff]

/-- The two runs find the same values equal. -/
theorem convert {T T' l l' r r' : Value} (hT : (renamed K W.var).value T T')
    (hl : (renamed K W.var).value l l') (hr : (renamed K W.var).value r r') :
    K.Checks 𝒲.Causes (fun _ _ => True) (Γ.convert (K.leftEngine n) T l r)
      (Γ'.convert (K.rightEngine m) T' l' r') := by
  refine (Comparison.lift (h.readBack hK hT hl)).bind fun t t' ht => ?_
  refine (Comparison.lift (h.readBack hK hT hr)).bind fun u u' hu => ?_
  rw [h.alphaEquivalent_eq hK ht hu]
  split
  · exact True.intro
  · exact (Comparison.lift (h.readBackType hK hT)).bind fun ty ty' hty =>
      Comparison.rejected (.notTheSame h.admits hty ht hu)

/-- The two runs find the same types equal. -/
theorem sameType {T T' U U' : Value} (hT : (renamed K W.var).value T T')
    (hU : (renamed K W.var).value U U') :
    K.Checks 𝒲.Causes (fun _ _ => True) (Γ.sameType (K.leftEngine n) T U)
      (Γ'.sameType (K.rightEngine m) T' U') := by
  refine (Comparison.lift (h.readBackType hK hT)).bind fun t t' ht => ?_
  refine (Comparison.lift (h.readBackType hK hU)).bind fun u u' hu => ?_
  rw [h.alphaEquivalent_eq hK ht hu]
  split
  · exact True.intro
  · exact Comparison.rejected (.typeMismatch h.admits ht hu)

end Worlds.Contexts

/-! ## References -/

namespace Context

variable {Γ : Context}

theorem lookupType_of_not_mem {x : String} (hx : x ∉ Γ.names) :
    Γ.lookupType x = .error (.unboundVariable x) := by
  rw [lookupType, List.find?_eq_none.2]
  rintro ⟨y, binding⟩ hmem hyx
  have hy : y = x := by simp at hyx; exact hyx.1
  exact hx (List.mem_map.2 ⟨(y, binding), hmem, hy⟩)

/-- A free name has the type that it was bound with. -/
theorem lookupType_extendFree_self (x : String) (ty : Value) :
    (Γ.extendFree x ty).lookupType x = .ok ty := by
  simp [lookupType, extendFree, Binding.isClaim, Binding.ty]

theorem lookupType_extendFree {x y : String} (ty : Value) (h : y ≠ x) :
    (Γ.extendFree x ty).lookupType y = Γ.lookupType y := by
  simp [lookupType, extendFree, Ne.symm h]

theorem names_extendFree (x : String) (ty : Value) :
    (Γ.extendFree x ty).names = x :: Γ.names := rfl

theorem bindFree_of_not_mem {x : String} (hx : x ∉ Γ.names) (ty : Value) :
    Γ.bindFree x ty = .ok (Γ.extendFree x ty) := by
  rw [bindFree, if_neg hx]

end Context

namespace Scope

/-- The binders of the program were given names that are in use. -/
def WellFormed (S : Scope) : Prop := ∀ y ∈ S.renamed.map Prod.snd, y ∈ S.context.names

variable {S : Scope}

theorem WellFormed.mem_names (hS : S.WellFormed) {x y : String}
    (h : S.renamed.lookup x = some y) :
    y ∈ S.context.names := by
  obtain ⟨before, after, hsplit, _⟩ := List.lookup_eq_some_iff.1 h
  refine hS y (List.mem_map.2 ⟨(x, y), ?_, rfl⟩)
  simp [hsplit]

theorem resolve_of_lookup {x y : String} (h : S.renamed.lookup x = some y) :
    S.resolve x = .ok y := by
  rw [resolve, h]

theorem resolve_of_lookup_none {x : String} (h : S.renamed.lookup x = none) :
    S.resolve x = if x ∈ S.renamed.map Prod.snd then .error (.unboundVariable x)
      else .ok x := by
  rw [resolve, h]

theorem reference_of_resolve {x y : String} (h : S.resolve x = .ok y) :
    S.reference x = (S.context.lookupType y).map (Prod.mk y) := by
  rw [reference, h]
  exact (map_eq_pure_bind (Prod.mk y) (S.context.lookupType y)).symm

theorem reference_of_resolve_error {x : String} {c : Cause} (h : S.resolve x = .error c) :
    S.reference x = .error c := by
  rw [reference, h]
  rfl

/-- A binder that the program writes changes the meaning of its own name only. -/
theorem reference_bind (hS : S.WellFormed) {y : String} (hy : y ∉ S.context.names) (x : String)
    (ty : Value) (a : String) :
    reference ⟨S.context.extendFree y ty, (x, y) :: S.renamed⟩ a = if a =
      x then .ok (y, ty) else S.reference a := by
  split
  · rename_i ha
    subst ha
    have hself : resolve ⟨S.context.extendFree y ty, (a, y) :: S.renamed⟩ a = .ok y :=
      resolve_of_lookup List.lookup_cons_self
    rw [reference_of_resolve hself, Context.lookupType_extendFree_self]
    rfl
  · rename_i ha
    have hlookup : ((x, y) :: S.renamed).lookup a = S.renamed.lookup a := by
      rw [List.lookup_cons, beq_false_of_ne ha]
    cases hz : S.renamed.lookup a with
    | some z =>
      have hzy : z ≠ y := fun h => hy (h ▸ hS.mem_names hz)
      rw [reference_of_resolve (resolve_of_lookup (hlookup.trans hz)),
        reference_of_resolve (resolve_of_lookup hz), Context.lookupType_extendFree ty hzy]
    | none =>
      have hnew := resolve_of_lookup_none
        (S := ⟨S.context.extendFree y ty, (x, y) :: S.renamed⟩) (hlookup.trans hz)
      have hold := resolve_of_lookup_none hz
      by_cases hay : a = y
      · -- the new name is not in use yet, so it means nothing before and after
        subst hay
        rw [if_pos (by simp)] at hnew
        rw [if_neg fun h => hy (hS a h)] at hold
        rw [reference_of_resolve_error hnew, reference_of_resolve hold,
          Context.lookupType_of_not_mem hy]
        rfl
      · by_cases hmem : a ∈ S.renamed.map Prod.snd
        · rw [if_pos (by simp [hay, List.mem_map.1 hmem])] at hnew
          rw [if_pos hmem] at hold
          rw [reference_of_resolve_error hnew, reference_of_resolve_error hold]
        · rw [if_neg (by simpa [hay] using hmem)] at hnew
          rw [if_neg hmem] at hold
          rw [reference_of_resolve hnew, reference_of_resolve hold,
            Context.lookupType_extendFree ty hay]

/-- A binder that elaboration introduces changes the meaning of no name but the one it is
given. -/
theorem reference_bindHidden (hS : S.WellFormed) {y : String} (hy : y ∉ S.context.names)
    (ty : Value) {a : String} (ha : a ≠ y) :
    reference ⟨S.context.extendFree y ty, S.renamed⟩ a = S.reference a := by
  have hresolve : resolve ⟨S.context.extendFree y ty, S.renamed⟩ a = S.resolve a := rfl
  cases hz : S.resolve a with
  | error c =>
    rw [reference_of_resolve_error (hresolve.trans hz), reference_of_resolve_error hz]
  | ok z =>
    have hzy : z ≠ y := by
      cases hlookup : S.renamed.lookup a with
      | some w =>
        rw [resolve_of_lookup hlookup] at hz
        cases hz
        exact fun h => hy (h ▸ hS.mem_names hlookup)
      | none =>
        rw [resolve_of_lookup_none hlookup] at hz
        split at hz
        · cases hz
        · cases hz
          exact ha
    rw [reference_of_resolve (hresolve.trans hz), reference_of_resolve hz,
      Context.lookupType_extendFree ty hzy]

end Scope

/-! ## Scopes -/

namespace Worlds

open Likeness

variable {K : Comparison}

/-- Two names refer to names that stand for each other, of types that are equal up to names, or
both to nothing. -/
abbrev Referents (𝒲 : Worlds K) (W : ScopedWorld) :
    Except Cause (String × Value) → Except Cause (String × Value) → Prop :=
  Compared (fun _ => False) (fun _ => False) 𝒲.Causes
    (fun p p' => W.scope p.1 p'.1 ∧ (renamed K W.var).value p.2 p'.2)

/-- Two scopes have corresponding contexts, and in them the given names refer to corresponding
things. -/
structure Scopes (𝒲 : Worlds K) (W : ScopedWorld) (τ : NameRelation) (S S' : Scope) : Prop where
  context : 𝒲.Contexts W S.context S'.context
  left : S.WellFormed
  right : S'.WellFormed
  reference : ∀ a b, τ a b → 𝒲.Referents W (S.reference a) (S'.reference b)

/-- The two runs bound a name that the program writes. -/
structure Bound (𝒲 : Worlds K) (W : ScopedWorld) (τ : NameRelation)
    (p p' : String × Scope) : Prop where
  binder : K.binder p.1 p'.1
  left : p.1 ∉ W.left
  right : p'.1 ∉ W.right
  scopes : 𝒲.Scopes (W.push p.1 p'.1) τ p.2 p'.2

variable {𝒲 : Worlds K} {W : ScopedWorld}

/-- Contexts that correspond still do so after both bind a new name. -/
theorem Contexts.extendFree {Γ Γ' : Context} (h : 𝒲.Contexts W Γ Γ') {y z : String}
    (hy : y ∉ W.left) (hz : z ∉ W.right) (hW : 𝒲.admits (W.push y z).toWorld) {ty ty' : Value}
    (hty : (renamed K W.var).value ty ty') :
    𝒲.Contexts (W.push y z) (Γ.extendFree y ty) (Γ'.extendFree z ty') := by
  have hmono := renamed_mono (K := K) (𝒲.var_push h.admits hy hz hW)
  exact
    { admits := hW
      wellFormed := h.wellFormed.push y z
      left := by rw [Context.names_extendFree, h.left]; rfl
      right := by rw [Context.names_extendFree, h.right]; rfl
      environments := (hmono.environments h.environments).cons
        (renamed_var (hmono.value hty)) y z }

namespace Scopes

variable {τ : NameRelation} {S S' : Scope} (hS : 𝒲.Scopes W τ S S')

include hS

/-- Fewer names may be asked for. -/
theorem mono {υ : NameRelation} (h : ∀ a b, υ a b → τ a b) : 𝒲.Scopes W υ S S' :=
  ⟨hS.context, hS.left, hS.right, fun a b hab => hS.reference a b (h a b hab)⟩

/-- What two names refer to corresponds below a pair of new names as well. -/
theorem reference_push {y z : String} (hy : y ∉ W.left) (hz : z ∉ W.right)
    (hW : 𝒲.admits (W.push y z).toWorld) {a b : String} (hab : τ a b) :
    𝒲.Referents (W.push y z) (S.reference a) (S'.reference b) := by
  refine (hS.reference a b hab).mono fun p p' hp => ?_
  exact ⟨hS.context.wellFormed.scope_push hy hz _ _ hp.1,
    (renamed_mono (𝒲.var_push hS.context.admits hy hz hW)).value hp.2⟩

/-- The two runs bind a name that the program writes. -/
theorem bind {x x' : Surface.Site} (hx : K.binder x.name x'.name) {ty ty' : Value}
    (hty : (renamed K W.var).value ty ty') :
    𝒲.Checked (𝒲.Bound W (τ.push x.name x'.name)) (S.bind x ty) (S'.bind x' ty') := by
  have hfresh := 𝒲.fresh_name hS.context.admits hx
  rw [← hS.context.left, ← hS.context.right] at hfresh
  refine (Comparison.lift hfresh).bind fun y z ⟨hyz, hleft, hright, hW⟩ => ?_
  have hy : y ∉ W.left := hS.context.left ▸ hleft
  have hz : z ∉ W.right := hS.context.right ▸ hright
  rw [Context.bindFree_of_not_mem hleft, Context.bindFree_of_not_mem hright]
  refine Compared.of_ok (R := 𝒲.Bound W (τ.push x.name x'.name))
    ⟨hyz, hy, hz, hS.context.extendFree hy hz hW hty, ?_, ?_, ?_⟩
  · intro w hw
    rcases List.mem_cons.1 hw with rfl | hw
    · exact List.mem_cons_self
    · exact List.mem_cons_of_mem _ (hS.left w hw)
  · intro w hw
    rcases List.mem_cons.1 hw with rfl | hw
    · exact List.mem_cons_self
    · exact List.mem_cons_of_mem _ (hS.right w hw)
  · intro a b hab
    rw [Scope.reference_bind hS.left hleft, Scope.reference_bind hS.right hright]
    rcases hab with ⟨rfl, rfl⟩ | ⟨ha, hb, hab⟩
    · rw [if_pos rfl, if_pos rfl]
      exact ⟨Or.inl ⟨rfl, rfl⟩,
        (renamed_mono (𝒲.var_push hS.context.admits hy hz hW)).value hty⟩
    · rw [if_neg ha, if_neg hb]
      exact hS.reference_push hy hz hW hab

/-- The two runs bind a name that elaboration introduces and that none of the given names is. -/
theorem bindHidden {s s' : Span} {y z : String} (hy : y ∉ W.left) (hz : z ∉ W.right)
    (hW : 𝒲.admits (W.push y z).toWorld) {ty ty' : Value} (hty : (renamed K W.var).value ty ty')
    (hτ : ∀ a b, τ a b → a ≠ y ∧ b ≠ z) :
    𝒲.Checked (𝒲.Scopes (W.push y z) τ) (S.bindHidden y ty s) (S'.bindHidden z ty' s') := by
  have hleft : y ∉ S.context.names := hS.context.left ▸ hy
  have hright : z ∉ S'.context.names := hS.context.right ▸ hz
  rw [Scope.bindHidden, Scope.bindHidden, Context.bindFree_of_not_mem hleft,
    Context.bindFree_of_not_mem hright]
  refine Compared.of_ok (R := 𝒲.Scopes (W.push y z) τ)
    ⟨hS.context.extendFree hy hz hW hty, ?_, ?_, ?_⟩
  · exact fun w hw => List.mem_cons_of_mem _ (hS.left w hw)
  · exact fun w hw => List.mem_cons_of_mem _ (hS.right w hw)
  · intro a b hab
    rw [Scope.reference_bindHidden hS.left hleft ty (hτ a b hab).1,
      Scope.reference_bindHidden hS.right hright ty' (hτ a b hab).2]
    exact hS.reference_push hy hz hW hab

end Scopes

end Worlds

end PieChecker
