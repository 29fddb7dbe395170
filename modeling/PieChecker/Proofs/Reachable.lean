import PieChecker.Proofs.Simulation.Elaboration
import PieChecker.Session

set_option autoImplicit false

/-!
# Reachable contexts

A context is reachable if it was built from the empty one by claiming, binding and defining
names, with types and values that were elaborated and evaluated in the context of that moment.
The contexts of sessions are reachable.

The invariant of reachable contexts is `Context.Scoped`: everything that a context holds is
equal to itself up to names, if no free names but those in scope may occur in it. This looks
like reflexivity and is not: a value with any other free name is not related to itself. Whatever
is elaborated, evaluated or read back in such a context is related to itself in the same way,
because the checker takes related input to related output.
-/

namespace PieChecker

/-! ## Runs that differ in names only -/

/-- The stops at a limit: no name or no fuel is left. -/
def Stop.IsLimit (s : Stop) : Prop := s = .overflow ∨ s = .exhausted

/-- The comparison of two runs by the same strategy that may choose names of binders
differently. Nothing is claimed if a run ends in one of the given stops. -/
def Comparison.upTo (strategy : Strategy) (free : Stop → Prop) : Comparison where
  left := strategy
  right := strategy
  binder _ _ := True
  span := Eq
  leftFree := free
  rightFree := free
  agreed s := s ≠ .unbound
  agreed_broken := nofun
  agreed_exhausted := nofun
  strategies := Or.inl rfl

/-- Nothing is claimed if a run stops at a limit. -/
abbrev Comparison.upToNames (strategy : Strategy) : Comparison := .upTo strategy Stop.IsLimit

/-- The free names of a world are in use, and each stands for at most one other. -/
structure World.Consistent (W : World) : Prop where
  mem : ∀ {a b}, W.var a b → a ∈ W.left ∧ b ∈ W.right
  biunique : ∀ {a a' b b'}, W.var a b → W.var a' b' → (a = a' ↔ b = b')

/-- New names keep a world consistent. -/
theorem World.Consistent.push {W : World} (h : W.Consistent) {y z : String} (hy : y ∉ W.left)
    (hz : z ∉ W.right) :
    (W.push y z).Consistent where
  mem := by
    rintro a b (⟨rfl, rfl⟩ | ⟨_, _, hab⟩)
    · exact ⟨List.mem_cons_self, List.mem_cons_self⟩
    · exact ⟨List.mem_cons_of_mem _ (h.mem hab).1, List.mem_cons_of_mem _ (h.mem hab).2⟩
  biunique := by
    rintro a a' b b' (⟨rfl, rfl⟩ | ⟨ha, hb, hab⟩) (⟨rfl, rfl⟩ | ⟨ha', hb', hab'⟩)
    · exact ⟨fun _ => rfl, fun _ => rfl⟩
    · exact ⟨fun h => (ha' h.symm).elim, fun h => (hb' h.symm).elim⟩
    · exact ⟨fun h => (ha h).elim, fun h => (hb h).elim⟩
    · exact h.biunique hab hab'

/-- Two such runs can be compared whatever fuel they have. -/
theorem Comparison.fuels_upToNames (strategy : Strategy) (n m : Nat) :
    (Comparison.upToNames strategy).Fuels n m := by
  rcases Nat.le_total n m with h | h
  · exact Or.inr (Or.inl ⟨h, Or.inr rfl⟩)
  · exact Or.inr (Or.inr ⟨h, Or.inr rfl⟩)

theorem Worlds.comparable_upTo {strategy : Strategy} {free : Stop → Prop} {n m : Nat}
    (h : (Comparison.upTo strategy free).Fuels n m) : Comparable (.upTo strategy free) n m where
  fuels := h
  binder _ := True.intro
  span := by
    rintro s _ t _ rfl rfl
    exact Iff.rfl

theorem Worlds.comparable_upToNames (strategy : Strategy) (n m : Nat) :
    Comparable (.upToNames strategy) n m :=
  comparable_upTo (Comparison.fuels_upToNames strategy n m)

/-- Two runs may be in any consistent world, if any two names of binders may stand for each
other and nothing is claimed where no name is left. -/
def Worlds.anyConsistent {K : Comparison} (hbinder : ∀ x y, K.binder x y)
    (hleft : K.leftFree .overflow) (hright : K.rightFree .overflow) : Worlds K where
  admits := World.Consistent
  var_push h hy hz _ := fun a b hab =>
    Or.inr ⟨fun ha => hy (ha ▸ (h.mem hab).1), fun hb => hz (hb ▸ (h.mem hab).2), hab⟩
  biunique h hab hab' := h.biunique hab hab'
  fresh := by
    intro W o o' a b hW _ _
    cases hy : Name.freshen (W.left ++ o) a with
    | error s =>
      rw [Name.freshen_stop hy]
      exact Compared.of_left hleft _
    | ok y =>
      cases hz : Name.freshen (W.right ++ o') b with
      | error s =>
        rw [Name.freshen_stop hz]
        exact Compared.of_right hright _
      | ok z =>
        have hy := Name.freshen_not_mem hy
        have hz := Name.freshen_not_mem hz
        exact ⟨hbinder y z, hy, hz, hW.push (fun h => hy (List.mem_append_left _ h))
          (fun h => hz (List.mem_append_left _ h))⟩

/-- The worlds of two runs by the same strategy, if nothing is claimed where no name is left. -/
def Worlds.consistentUpTo (strategy : Strategy) {free : Stop → Prop} (hfree : free .overflow) :
    Worlds (.upTo strategy free) :=
  anyConsistent (fun _ _ => True.intro) hfree hfree

/-- The worlds of two runs that may stop at a limit. -/
def Worlds.consistent (strategy : Strategy) : Worlds (.upToNames strategy) :=
  consistentUpTo strategy (Or.inl rfl)

/-! ## What a context holds -/

namespace Context

variable (strategy : Strategy)

/-- A type or a value of a context: one that was elaborated and evaluated in it, or that one of
its names has. -/
inductive Elaborated (Γ : Context) : Value → Prop where
  | type {n m : Nat} {e : Surface.Expr} {t : Core} {ty : Value}
      (ht : Γ.isType ⟨strategy, n⟩ e = .ok t)
    (hty : Γ.evaluate ⟨strategy, m⟩ t = .ok ty) : Elaborated Γ ty
  | typeFound {n : Nat} {e : Surface.Expr} {t : Core} {ty : Value}
    (h : Γ.synthesize ⟨strategy, n⟩ e = .ok (t, ty)) : Elaborated Γ ty
  | found {n m : Nat} {e : Surface.Expr} {t : Core} {ty v : Value}
    (h : Γ.synthesize ⟨strategy, n⟩ e = .ok (t, ty)) (hv : Γ.evaluate ⟨strategy, m⟩ t = .ok v) :
    Elaborated Γ v
  | checked {n m : Nat} {e : Surface.Expr} {t : Core} {ty v : Value} (hty : Elaborated Γ ty)
    (h : Γ.check ⟨strategy, n⟩ e ty = .ok t) (hv : Γ.evaluate ⟨strategy, m⟩ t = .ok v) :
    Elaborated Γ v
  | typeBound {x : String} {b : Binding} (h : (x, b) ∈ Γ.bindings) : Elaborated Γ b.ty
  | bound {x : String} {v : Value} (h : (x, v) ∈ Γ.environment) : Elaborated Γ v

/-- The contexts that arise by claiming, binding and defining names, with types and values of
the context of that moment. -/
inductive Reachable : Context → Prop where
  | empty : Reachable .empty
  | claim {Γ : Context} (hΓ : Reachable Γ) (x : String) {ty : Value}
      (hty : Γ.Elaborated strategy ty) :
    Reachable (Γ.claim x ty)
  | bindFree {Γ Γ' : Context} (hΓ : Reachable Γ) {x : String} {ty : Value}
      (hty : Γ.Elaborated strategy ty)
    (h : Γ.bindFree x ty = .ok Γ') : Reachable Γ'
  | define {Γ : Context} (hΓ : Reachable Γ) (x : String) {ty v : Value}
      (hty : Γ.Elaborated strategy ty)
    (hv : Γ.Elaborated strategy v) : Reachable (Γ.define x ty v)

/-- The names in scope, each standing for itself. -/
def inScope (Γ : Context) : NameRelation := fun a b => a = b ∧ (Γ.environment.lookup a).isSome

/-- The world of two runs in one context, with the given free names. -/
def world (Γ : Context) (β : NameRelation) : ScopedWorld := ⟨⟨Γ.names, Γ.names, β⟩, Γ.inScope⟩

end Context

/-- What a binding contributes to the environment: a claim nothing, a free name its own
variable, a definition its value. -/
def Binding.value? (x : String) : Binding → Option Value
  | claim _ => none
  | free ty => some (.var x ty)
  | defined _ value => some value

/-- The environment that a list of bindings stands for. -/
def Context.valuesOf (bindings : List (String × Binding)) : Environment :=
  bindings.filterMap fun (x, binding) => (binding.value? x).map (Prod.mk x)

namespace Context

open Likeness

/-- What a context holds has no free names but the given ones. -/
structure Within (K : Comparison) (β : NameRelation) (Γ : Context) : Prop where
  /-- The environment is what the bindings stand for. -/
  environment_eq : Γ.environment = valuesOf Γ.bindings
  /-- The given names are in scope. -/
  scope : ∀ a b, β a b → Γ.inScope a b
  types : ∀ {x b}, (x, b) ∈ Γ.bindings → (renamed K β).value b.ty b.ty
  values : ∀ {x v}, (x, v) ∈ Γ.environment → (renamed K β).value v v

/-- The invariant of reachable contexts: types and values have no free names but those in
scope. -/
abbrev Scoped (K : Comparison) (Γ : Context) : Prop := Γ.Within K Γ.inScope

theorem valuesOf_cons (x : String) (b : Binding) (bindings : List (String × Binding)) :
    valuesOf ((x, b) :: bindings) =
      match b.value? x with
      | some v => (x, v) :: valuesOf bindings
      | none => valuesOf bindings := by
  rw [valuesOf, List.filterMap_cons]
  cases b <;> rfl

/-- The newest binding of a name that is not a claim gives its type and its value. -/
theorem lookup_valuesOf (bindings : List (String × Binding)) (x : String) :
    (∃ before b v after, bindings = before ++ (x, b) :: after ∧
      (∀ p ∈ before, p.1 = x → p.2.isClaim = true) ∧ b.value? x = some v ∧ bindings.find?
      (fun (y, binding) => y = x && !binding.isClaim) = some (x, b) ∧
      (valuesOf bindings).lookup x = some v) ∨
    (bindings.find? (fun (y, binding) => y = x && !binding.isClaim) = none ∧
      (valuesOf bindings).lookup x = none) := by
  induction bindings with
  | nil => exact Or.inr ⟨rfl, rfl⟩
  | cons p bindings ih =>
    obtain ⟨y, b⟩ := p
    rw [valuesOf_cons]
    by_cases hclaim : b.isClaim = true
    · -- a claim is passed over on both sides
      have hvalue : b.value? y = none := by
        cases b with
        | claim => rfl
        | free | defined => cases hclaim
      rw [hvalue, List.find?_cons_of_neg (by simp [hclaim])]
      rcases ih with ⟨before, b', v, after, rfl, hbefore, hv, hfind, hlookup⟩ | hnone
      · refine Or.inl ⟨(y, b) :: before, b', v, after, rfl, ?_, hv, hfind, hlookup⟩
        intro p hp hpx
        rcases List.mem_cons.1 hp with rfl | hp
        · exact hclaim
        · exact hbefore p hp hpx
      · exact Or.inr hnone
    · obtain ⟨v, hvalue⟩ : ∃ v, b.value? y = some v := by
        cases b with
        | claim => exact (hclaim rfl).elim
        | free ty => exact ⟨_, rfl⟩
        | defined ty v => exact ⟨_, rfl⟩
      rw [hvalue]
      by_cases hyx : y = x
      · subst hyx
        refine Or.inl ⟨[], b, v, bindings, rfl, nofun, hvalue, ?_, List.lookup_cons_self⟩
        rw [List.find?_cons_of_pos (by simp [hclaim])]
      · rw [List.find?_cons_of_neg (by simp [hyx]), List.lookup_cons,
          beq_false_of_ne (Ne.symm hyx)]
        rcases ih with ⟨before, b', w, after, rfl, hbefore, hw, hfind, hlookup⟩ | hnone
        · refine Or.inl ⟨(y, b) :: before, b', w, after, rfl, ?_, hw, hfind, hlookup⟩
          intro p hp hpx
          rcases List.mem_cons.1 hp with rfl | hp
          · exact (hyx hpx).elim
          · exact hbefore p hp hpx
        · exact Or.inr hnone

namespace Within

variable {K : Comparison} {β : NameRelation} {Γ : Context}

/-- A name has a type exactly if it has a value, and both are given by its newest binding that
is not a claim. -/
theorem lookupType_cases (h : Γ.Within K β) (x : String) :
    (∃ before b v after, Γ.bindings = before ++ (x, b) :: after ∧
      (∀ p ∈ before, p.1 = x → p.2.isClaim = true) ∧ b.value? x = some v ∧
      Γ.lookupType x = .ok b.ty ∧
      Γ.environment.lookup x = some v) ∨
    (Γ.lookupType x = .error (.unboundVariable x) ∧ Γ.environment.lookup x = none) := by
  rw [lookupType, h.environment_eq]
  rcases lookup_valuesOf Γ.bindings
    x with ⟨before, b, v, after, hsplit, hbefore, hv, hfind, hlookup⟩ | ⟨hfind, hlookup⟩
  · exact Or.inl ⟨before, b, v, after, hsplit, hbefore, hv, by rw [hfind], hlookup⟩
  · exact Or.inr ⟨by rw [hfind], hlookup⟩

/-! ### Runs in one context -/

variable {strategy : Strategy}

/-- Names in scope are in use. -/
theorem mem_names (h : Γ.Within K β) {a b : String} (hab : Γ.inScope a b) :
    a ∈ Γ.names ∧ b ∈ Γ.names := by
  obtain ⟨rfl, hsome⟩ := hab
  rcases h.lookupType_cases a with ⟨before, b, v, after, hsplit, _⟩ | ⟨_, hnone⟩
  · have hmem : a ∈ Γ.names := by
      rw [names, hsplit]
      simp
    exact ⟨hmem, hmem⟩
  · rw [hnone] at hsome
    cases hsome

/-- Two runs in one context start in corresponding contexts. -/
theorem contexts_of {𝒲 : Worlds K} (hadmits : ∀ {W : World}, W.Consistent → 𝒲.admits W)
    (h : Γ.Within K β) :
    𝒲.Contexts (Γ.world β) Γ Γ where
  admits := hadmits
    { mem := fun hab => h.mem_names (h.scope _ _ hab)
      biunique := by
        intro a a' b b' hab hab'
        obtain ⟨rfl, _⟩ := h.scope _ _ hab
        obtain ⟨rfl, _⟩ := h.scope _ _ hab'
        exact Iff.rfl }
  wellFormed := ⟨h.scope, fun _ _ hab => h.mem_names hab⟩
  left := rfl
  right := rfl
  environments :=
    { isSome_eq := by
        rintro a _ ⟨rfl, _⟩
        rfl
      unbound := by
        rintro a _ ⟨rfl, hsome⟩ hnone
        rw [hnone] at hsome
        cases hsome
      value := by
        rintro a _ v w ⟨rfl, _⟩ hv hw
        obtain rfl : v = w := Option.some.inj (hv.symm.trans hw)
        obtain ⟨before, after, hsplit, _⟩ := List.lookup_eq_some_iff.1 hv
        exact h.values (x := a) (by simp [hsplit]) }

/-- In one context, each name refers to the same thing in two runs. -/
theorem scopes_of {𝒲 : Worlds K} (hadmits : ∀ {W : World}, W.Consistent → 𝒲.admits W)
    (hbinder : ∀ x, K.binder x x) (h : Γ.Within K β) :
    𝒲.Scopes (Γ.world β) Eq (.ofContext Γ) (.ofContext Γ) where
  context := h.contexts_of hadmits
  left := nofun
  right := nofun
  reference := by
    rintro a _ rfl
    have hresolve : (Scope.ofContext Γ).resolve a = .ok a := rfl
    rw [Scope.reference_of_resolve hresolve]
    rcases h.lookupType_cases a with ⟨before, b, v, after, hsplit, _, _, hty, hv⟩ | ⟨herror, _⟩
    · have hty' : (Scope.ofContext Γ).context.lookupType a = .ok b.ty := hty
      rw [hty']
      exact ⟨⟨rfl, by rw [hv]; rfl⟩, h.types (x := a) (by simp [hsplit])⟩
    · have herror' : (Scope.ofContext Γ).context.lookupType a = .error (.unboundVariable a) :=
        herror
      rw [herror']
      exact Compared.of_errors (.unboundVariable (hbinder a))

theorem contexts (h : Γ.Within (.upToNames strategy) β) :
    (Worlds.consistent strategy).Contexts (Γ.world β) Γ Γ :=
  h.contexts_of fun hW => hW

theorem scopes (h : Γ.Within (.upToNames strategy) β) :
    (Worlds.consistent strategy).Scopes (Γ.world β) Eq (.ofContext Γ) (.ofContext Γ) :=
  h.scopes_of (fun hW => hW) fun _ => True.intro

/-- Renamed expressions have corresponding readings in one context. -/
theorem readings (h : Γ.Within (.upToNames strategy) β) (n m : Nat) {e e' : Surface.Expr}
    (he : Surface.Expr.Renamed Eq (fun _ _ => True) Eq e e') :
    (Worlds.consistent strategy).Readings (Γ.world β) (.ofContext Γ) (.ofContext Γ)
    (e.rules ⟨strategy, n⟩)
      (e'.rules ⟨strategy, m⟩) :=
  (Worlds.renamings (Worlds.comparable_upToNames strategy n m) he fun _ _ _ =>
    True.intro).readings (h.scopes.mono fun _ _ hab => hab.1)

section UpTo

variable {free : Stop → Prop} (hfree : free .overflow)

include hfree

/-- An expression is read in the same way by two runs in one context. -/
theorem readings_upTo (h : Γ.Within (.upTo strategy free) β) (n : Nat) (e : Surface.Expr) :
    (Worlds.consistentUpTo strategy hfree).Readings (Γ.world β) (.ofContext Γ) (.ofContext Γ)
    (e.rules ⟨strategy, n⟩)
      (e.rules ⟨strategy, n⟩) := by
  have hscopes : (Worlds.consistentUpTo strategy hfree).Scopes (Γ.world β) Eq (.ofContext Γ)
      (.ofContext Γ) :=
    h.scopes_of (fun hW => hW) fun _ => True.intro
  refine (Worlds.renamings (Worlds.comparable_upTo (Comparison.fuels_refl n)) ?_ fun _ _ _ =>
    True.intro).readings (hscopes.mono fun _ _ hab => hab.1)
  exact Surface.Expr.Renamed.refl (fun _ => True.intro) (fun _ _ => rfl) fun _ => rfl

/-- A term that is evaluated in a context has a value with no more free names than what the
context holds. -/
theorem evaluated (h : Γ.Within (.upTo strategy free) β) {n : Nat} {t : Core} {v : Value}
    (ht : Core.Related (.upTo strategy free) Γ.inScope t t)
    (hv : Γ.evaluate ⟨strategy, n⟩ t = .ok v) :
    (renamed (.upTo strategy free) β).value v v := by
  have hcontexts : (Worlds.consistentUpTo strategy hfree).Contexts (Γ.world β) Γ Γ :=
    h.contexts_of fun hW => hW
  have hvalues := hcontexts.evaluate (Worlds.comparable_upTo (Comparison.fuels_refl n)) ht
  exact hvalues.of_eq_ok hv hv

/-- What is elaborated and evaluated in a context has no more free names than what the context
holds. -/
theorem elaborated_upTo (h : Γ.Within (.upTo strategy free) β) {v : Value}
    (hv : Γ.Elaborated strategy v) :
    (renamed (.upTo strategy free) β).value v v := by
  have readings := h.readings_upTo hfree
  induction hv with
  | type ht hty => exact h.evaluated hfree ((readings _ _).isType.of_eq_ok ht ht) hty
  | typeFound hfound => exact ((readings _ _).synthesize.of_eq_ok hfound hfound).2
  | found hfound hv =>
    exact h.evaluated hfree ((readings _ _).synthesize.of_eq_ok hfound hfound).1 hv
  | checked _ ht hv ih => exact h.evaluated hfree (((readings _ _).check ih).of_eq_ok ht ht) hv
  | typeBound hmem => exact h.types hmem
  | bound hmem => exact h.values hmem

end UpTo

theorem readings_self (h : Γ.Within (.upToNames strategy) β) (n : Nat) (e : Surface.Expr) :
    (Worlds.consistent strategy).Readings (Γ.world β) (.ofContext Γ) (.ofContext Γ)
    (e.rules ⟨strategy, n⟩)
      (e.rules ⟨strategy, n⟩) :=
  h.readings_upTo (Or.inl rfl) n e

theorem elaborated (h : Γ.Within (.upToNames strategy) β) {v : Value}
    (hv : Γ.Elaborated strategy v) :
    (renamed (.upToNames strategy) β).value v v :=
  h.elaborated_upTo (Or.inl rfl) hv

end Within

/-- More names may come into scope. -/
theorem inScope_cons {Γ Γ' : Context} {x : String} {v : Value}
    (h : Γ'.environment = (x, v) :: Γ.environment) :
    ∀ a b, Γ.inScope a b → Γ'.inScope a b := by
  rintro a _ ⟨rfl, hsome⟩
  refine ⟨rfl, ?_⟩
  rw [h, List.lookup_cons]
  split
  · rfl
  · exact hsome

/-- Names that come into scope keep the invariant, if their types and values do. -/
theorem Scoped.cons {K : Comparison} {Γ Γ' : Context} (h : Γ.Scoped K) {x : String}
    {b : Binding} {v : Value} (hb : Γ'.bindings = (x, b) :: Γ.bindings)
    (hv : b.value? x = some v) (henv : Γ'.environment = (x, v) :: Γ.environment)
    (hty : (renamed K Γ.inScope).value b.ty b.ty) (hself : (renamed K Γ'.inScope).value v v) :
    Γ'.Scoped K where
  environment_eq := by
    rw [henv, hb, valuesOf_cons, hv, h.environment_eq]
  scope _ _ hab := hab
  types := by
    intro y b' hmem
    rw [hb] at hmem
    rcases List.mem_cons.1 hmem with heq | hmem
    · cases heq
      exact (renamed_mono (inScope_cons henv)).value hty
    · exact (renamed_mono (inScope_cons henv)).value (h.types hmem)
  values := by
    intro y w hmem
    rw [henv] at hmem
    rcases List.mem_cons.1 hmem with heq | hmem
    · cases heq
      exact hself
    · exact (renamed_mono (inScope_cons henv)).value (h.values hmem)

theorem Scoped.claim {K : Comparison} {Γ : Context} (h : Γ.Scoped K) (x : String) {ty : Value}
    (hty : (renamed K Γ.inScope).value ty ty) : (Γ.claim x ty).Scoped K := by
  refine ⟨h.environment_eq, fun _ _ hab => hab, ?_, h.values⟩
  intro y b hmem
  rcases List.mem_cons.1 hmem with heq | hmem
  · cases heq
    exact hty
  · exact h.types hmem

theorem Scoped.define {K : Comparison} {Γ : Context} (h : Γ.Scoped K) (x : String)
    {ty v : Value} (hty : (renamed K Γ.inScope).value ty ty)
    (hv : (renamed K Γ.inScope).value v v) : (Γ.define x ty v).Scoped K :=
  h.cons rfl rfl rfl hty ((renamed_mono (inScope_cons rfl)).value hv)

/-- A free name stands for itself, once it is in scope. -/
theorem Scoped.bindFree {K : Comparison} {Γ Γ' : Context} (h : Γ.Scoped K) {x : String}
    {ty : Value} (hty : (renamed K Γ.inScope).value ty ty) (hbind : Γ.bindFree x ty = .ok Γ') :
    Γ'.Scoped K := by
  rw [Context.bindFree] at hbind
  split at hbind
  · cases hbind
  · cases hbind
    have hx : (Γ.extendFree x ty).inScope x x :=
      ⟨rfl, by rw [extendFree, List.lookup_cons_self]; rfl⟩
    have hgrow : ∀ a b, Γ.inScope a b → (Γ.extendFree x ty).inScope a b := inScope_cons rfl
    have hmono := renamed_mono (K := K) hgrow
    refine h.cons rfl rfl rfl hty (renamed_closed.ofHead ?_)
    exact .neutral (hmono.value hty) (rule_below_renamed.neutral (.var hx))

theorem scoped_empty (K : Comparison) : Context.empty.Scoped K :=
  ⟨rfl, fun _ _ hab => hab, nofun, nofun⟩

/-- Reachable contexts satisfy the invariant. -/
theorem Reachable.scoped {strategy : Strategy} {Γ : Context}
    (hΓ : Γ.Reachable strategy) : Γ.Scoped (.upToNames strategy) := by
  induction hΓ with
  | empty => exact scoped_empty _
  | claim _ x hty ih => exact ih.claim x (ih.elaborated hty)
  | bindFree _ hty hbind ih => exact ih.bindFree (ih.elaborated hty) hbind
  | define _ x hty hv ih => exact ih.define x (ih.elaborated hty) (ih.elaborated hv)

/-! ## Sessions -/

/-- Processing a form leads from a reachable context to a reachable one. -/
theorem Reachable.process {strategy : Strategy} {n : Nat} {Γ Γ' : Context}
    (hΓ : Γ.Reachable strategy) {form : Surface.Form} {processed : Processed}
    (h : Γ.process ⟨strategy, n⟩ form = .ok (processed, Γ')) :
    Γ'.Reachable strategy := by
  cases form with
  | claim site ty =>
    rw [Context.process] at h
    split at h
    · cases h
    · obtain ⟨t, ht, h⟩ := bind_eq_ok_iff.1 h
      obtain ⟨v, hv, h⟩ := bind_eq_ok_iff.1 h
      cases h
      exact hΓ.claim site.name (.type ht (Outcome.unrejected_eq_ok_iff.1 hv))
  | define site term =>
    rw [Context.process] at h
    split at h
    · rename_i ty hclaim
      obtain ⟨t, ht, h⟩ := bind_eq_ok_iff.1 h
      obtain ⟨v, hv, h⟩ := bind_eq_ok_iff.1 h
      cases h
      -- the type was elaborated when the name was claimed
      obtain ⟨before, after, hsplit, _⟩ := List.lookup_eq_some_iff.1 hclaim
      have hty : Γ.Elaborated strategy ty :=
        .typeBound (x := site.name) (b := .claim ty) (by simp [hsplit])
      exact hΓ.define site.name hty (.checked hty ht (Outcome.unrejected_eq_ok_iff.1 hv))
    · cases h
    · cases h
  | checkSame ty left right =>
    rw [Context.process] at h
    obtain ⟨_, _, h⟩ := bind_eq_ok_iff.1 h
    obtain ⟨_, _, h⟩ := bind_eq_ok_iff.1 h
    obtain ⟨_, _, h⟩ := bind_eq_ok_iff.1 h
    obtain ⟨_, _, h⟩ := bind_eq_ok_iff.1 h
    obtain ⟨_, _, h⟩ := bind_eq_ok_iff.1 h
    obtain ⟨_, _, h⟩ := bind_eq_ok_iff.1 h
    obtain ⟨_, _, h⟩ := bind_eq_ok_iff.1 h
    cases h
    exact hΓ
  | expression e =>
    rw [Context.process] at h
    obtain ⟨_, _, h⟩ := bind_eq_ok_iff.1 h
    cases h
    exact hΓ

/-- All contexts of a session are reachable. -/
theorem Reachable.processAll {strategy : Strategy} {n : Nat} {Γ : Context}
    (hΓ : Γ.Reachable strategy) (forms : List Surface.Form) :
    (Γ.processAll ⟨strategy, n⟩ forms).context.Reachable strategy := by
  induction forms generalizing Γ with
  | nil => exact hΓ
  | cons form forms ih =>
    rw [Context.processAll]
    split
    · rename_i h
      exact ih (hΓ.process h)
    · exact hΓ

end Context

end PieChecker
