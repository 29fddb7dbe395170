import PieChecker.Proofs.Reachable

set_option autoImplicit false

/-!
# Scope safety

The terms that elaboration and read-back give in a reachable context have no free names but
those that have a value in its environment, so no evaluation stops at a name without a value.

Both facts are read off the comparison of a run with itself: a term that is related to itself
has free names that stand for themselves, which are the names in scope, and two runs that agree
do not agree on a name without a value.
-/

namespace PieChecker

open Likeness

namespace Context

/-- Every name that occurs free in the term has a value. -/
def Closes (Γ : Context) (t : Core) :
    Prop := ∀ y, t.mentions y = true → (Γ.environment.lookup y).isSome

/-- What scope safety asks of a context. -/
structure ScopeSafe (strategy : Strategy) (Γ : Context) : Prop where
  /-- The environment lists the bindings, without the claims, with the values of definitions and
  with free names as their own variables. -/
  environment_eq : Γ.environment = valuesOf Γ.bindings
  /-- A name has a type if and only if it has a value, and both come from one entry: the newest
  one that is no claim. -/
  lookup : ∀ x,
    (∃ before b v after, Γ.bindings = before ++ (x, b) :: after ∧
      (∀ p ∈ before, p.1 = x → p.2.isClaim = true) ∧ b.value? x = some v ∧
      Γ.lookupType x = .ok b.ty ∧
      Γ.environment.lookup x = some v) ∨
    (Γ.lookupType x = .error (.unboundVariable x) ∧ Γ.environment.lookup x = none)
  /-- The terms that elaboration returns. -/
  synthesize : ∀ n e t ty, Γ.synthesize ⟨strategy, n⟩ e = .ok (t, ty) → Γ.Closes t
  check : ∀ n e ty t, Γ.Elaborated strategy ty → Γ.check ⟨strategy, n⟩ e ty = .ok t → Γ.Closes t
  isType : ∀ n e t, Γ.isType ⟨strategy, n⟩ e = .ok t → Γ.Closes t
  /-- The terms that read-back returns. -/
  readBackType : ∀ n ty t, Γ.Elaborated strategy ty → Γ.readBackType ⟨strategy, n⟩ ty = .ok t →
    Γ.Closes t
  readBack : ∀ n ty v t, Γ.Elaborated strategy ty → Γ.Elaborated strategy v →
    Γ.readBack ⟨strategy, n⟩ ty v = .ok t → Γ.Closes t
  /-- Elaboration does not stop at a name without a value. -/
  elaborate : ∀ n e, Γ.synthesize ⟨strategy, n⟩ e ≠ .error (.stopped .unbound) ∧
    Γ.isType ⟨strategy, n⟩ e ≠ .error (.stopped .unbound) ∧
    ∀ ty, Γ.Elaborated strategy ty → Γ.check ⟨strategy, n⟩ e ty ≠ .error (.stopped .unbound)
  /-- Evaluating a closed term does not stop at a name without a value. -/
  evaluate : ∀ n t, Γ.Closes t → Γ.evaluate ⟨strategy, n⟩ t ≠ .error .unbound
  /-- Neither does forcing what the evaluation has delayed. -/
  force : ∀ n m t v, Γ.Closes t → Γ.evaluate ⟨strategy, n⟩ t = .ok v →
    Γ.readBackType ⟨strategy, m⟩ v ≠ .error .unbound ∧
    ∀ ty, Γ.Elaborated strategy ty → Γ.readBack ⟨strategy, m⟩ ty v ≠ .error .unbound

end Context

/-- A run that agrees with itself has not met a name without a value. -/
theorem Comparison.ne_unbound {strategy : Strategy} {α : Type} {R : α → α → Prop}
    {r : Outcome α} (h : (Comparison.upToNames strategy).Outcomes R r r) :
    r ≠ .error .unbound := by
  rintro rfl
  rcases h with h | h | ⟨_, h⟩
  · rcases h with h | h <;> cases h
  · rcases h with h | h <;> cases h
  · exact h rfl

theorem Worlds.Checked.ne_unbound {strategy : Strategy} {𝒲 : Worlds (.upToNames strategy)}
    {α : Type} {R : α → α → Prop} {r : PieChecker.Checked α} (h : 𝒲.Checked R r r) :
    r ≠ .error (.stopped .unbound) := by
  rintro rfl
  rcases h with h | h | h
  · rcases h with h | h <;> cases h
  · rcases h with h | h <;> cases h
  · cases h with
    | stopped h => exact h rfl

namespace Context

section Closes

variable {strategy : Strategy} {Γ : Context}

/-- The terms that are related to themselves by the names in scope are the closed ones. -/
theorem closes_iff_related {free : Stop → Prop} (t : Core) :
    Γ.Closes t ↔ Core.Related (.upTo strategy free) Γ.inScope t t := by
  constructor
  · intro h
    exact .refl (fun _ => True.intro) (fun _ => rfl) fun y hy => ⟨rfl, h y hy⟩
  · intro h y hy
    obtain ⟨_, _, hsome⟩ := h.of_mentions hy
    exact hsome

variable (h : Γ.Scoped (.upToNames strategy))

include h

theorem Scoped.evaluate_itself (n : Nat) {t : Core} (ht : Γ.Closes t) :
    (Comparison.upToNames strategy).Outcomes (renamed (.upToNames strategy) Γ.inScope).value
      (Γ.evaluate ⟨strategy, n⟩ t) (Γ.evaluate ⟨strategy, n⟩ t) :=
  h.contexts.evaluate (Worlds.comparable_upToNames strategy n n) ((closes_iff_related t).1 ht)

theorem Scoped.readBackType_itself (n : Nat) {ty : Value}
    (hty : (renamed (.upToNames strategy) Γ.inScope).value ty ty) :
    (Comparison.upToNames strategy).Outcomes (Core.Related (.upToNames strategy) Γ.inScope)
      (Γ.readBackType ⟨strategy, n⟩ ty) (Γ.readBackType ⟨strategy, n⟩ ty) :=
  h.contexts.readBackType (Worlds.comparable_upToNames strategy n n) hty

theorem Scoped.readBack_itself (n : Nat) {ty v : Value}
    (hty : (renamed (.upToNames strategy) Γ.inScope).value ty ty)
    (hv : (renamed (.upToNames strategy) Γ.inScope).value v v) :
    (Comparison.upToNames strategy).Outcomes (Core.Related (.upToNames strategy) Γ.inScope)
      (Γ.readBack ⟨strategy, n⟩ ty v) (Γ.readBack ⟨strategy, n⟩ ty v) :=
  h.contexts.readBack (Worlds.comparable_upToNames strategy n n) hty hv

end Closes

/-- Reachable contexts are safe: what is elaborated or read back in them mentions names in scope
only. -/
theorem Reachable.scopeSafe {strategy : Strategy} {Γ : Context} (hΓ : Γ.Reachable strategy) :
    Γ.ScopeSafe strategy := by
  have h : Γ.Scoped (.upToNames strategy) := hΓ.scoped
  exact
    { environment_eq := h.environment_eq
      lookup := h.lookupType_cases
      synthesize := fun n e t ty ht =>
        (closes_iff_related t).2 ((h.readings_self n e).synthesize.of_eq_ok ht ht).1
      check := fun n e ty t hty ht =>
        (closes_iff_related t).2
          (((h.readings_self n e).check (h.elaborated hty)).of_eq_ok ht ht)
      isType := fun n e t ht =>
        (closes_iff_related t).2 ((h.readings_self n e).isType.of_eq_ok ht ht)
      readBackType := fun n ty t hty ht =>
        (closes_iff_related t).2 ((h.readBackType_itself n (h.elaborated hty)).of_eq_ok ht ht)
      readBack := fun n ty v t hty hv ht =>
        (closes_iff_related t).2
          ((h.readBack_itself n (h.elaborated hty) (h.elaborated hv)).of_eq_ok ht ht)
      elaborate := fun n e =>
        ⟨(h.readings_self n e).synthesize.ne_unbound, (h.readings_self n e).isType.ne_unbound,
          fun ty hty => ((h.readings_self n e).check (h.elaborated hty)).ne_unbound⟩
      evaluate := fun n t ht => Comparison.ne_unbound (h.evaluate_itself n ht)
      force := fun n m t v ht hv => by
        have hself := (h.evaluate_itself n ht).of_eq_ok hv hv
        refine ⟨Comparison.ne_unbound (h.readBackType_itself m hself), fun ty hty => ?_⟩
        exact Comparison.ne_unbound (h.readBack_itself m (h.elaborated hty) hself) }

/-- The context of a session that claims a function on numbers and defines it. -/
def successorSession : Context :=
  (empty.processAll ⟨.onDemand, 20⟩
    [.claim ⟨⟨7, 8⟩, "f"⟩ (.arrow ⟨9, 21⟩ (.const ⟨12, 15⟩ .nat) [.const ⟨16, 19⟩ .nat]),
      .define ⟨⟨31, 32⟩, "f"⟩
        (.lambda ⟨33, 49⟩ [⟨⟨37, 38⟩, "n"⟩]
          (.unary ⟨40, 48⟩ .add1 (.var ⟨46, 47⟩ "n")))]).context

theorem successorSession_scopeSafe :
    successorSession.names = ["f", "f"] ∧
      (successorSession.environment.lookup "f").isSome = true ∧
      successorSession.ScopeSafe .onDemand :=
  ⟨rfl, rfl, Reachable.scopeSafe (Reachable.empty.processAll _)⟩

end Context

end PieChecker
