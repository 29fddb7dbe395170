import PieChecker.Proofs.EvaluatedValues
import PieChecker.Proofs.ScopeSafety

set_option autoImplicit false

/-!
# Contexts that grow

Contexts grow by claiming, binding and defining names, with types and values that the context of
that moment yields. What it yields depends on a *source*: the values that elaboration gives in
it, say, or the values of all terms that are scoped in it, typed or not. Whatever the source,
what the values are made of may be taken up as well, and what families of types give for them;
elaboration does so below binders.

If the values that the source gives have no free names but those in scope, then the same holds
of all that a grown context holds.
-/

namespace PieChecker.Context

open Likeness

/-- The values that a context yields: what the source gives, what the context holds, what such
values are made of, and what families of types give for such values. -/
inductive Yields (strategy : Strategy) (source : Context → Value → Prop) (Γ : Context) :
    Value → Prop where
  | given {v : Value} (h : source Γ v) : Yields strategy source Γ v
  | typeBound {x : String} {b : Binding} (h : (x, b) ∈ Γ.bindings) :
      Yields strategy source Γ b.ty
  | bound {x : String} {v : Value} (h : (x, v) ∈ Γ.environment) : Yields strategy source Γ v
  | component {v w a : Value} (hv : Yields strategy source Γ v) (hw : v.now = .ok w)
      (ha : a ∈ w.components) :
    Yields strategy source Γ a
  | member {n : Nat} {ty base a r : Value} {q : Quantifier} {x : String} {family : Closure}
    (hty : Yields strategy source Γ ty) (hnow : ty.now = .ok (.quant q x base family))
    (ha : Yields strategy source Γ a) (hr : family.run strategy n a = .ok r) :
    Yields strategy source Γ r

/-- The contexts that arise by claiming, binding and defining names, with types and values that
the context of that moment yields. -/
inductive GrownFrom (strategy : Strategy) (source : Context → Value → Prop) :
    Context → Prop where
  | empty : GrownFrom strategy source .empty
  | claim {Γ : Context} (hΓ : GrownFrom strategy source Γ) (x : String) {ty : Value}
    (hty : Γ.Yields strategy source ty) : GrownFrom strategy source (Γ.claim x ty)
  | bindFree {Γ Γ' : Context} (hΓ : GrownFrom strategy source Γ) {x : String} {ty : Value}
    (hty : Γ.Yields strategy source ty) (h : Γ.bindFree x ty = .ok Γ') :
    GrownFrom strategy source Γ'
  | define {Γ : Context} (hΓ : GrownFrom strategy source Γ) (x : String) {ty v : Value}
    (hty : Γ.Yields strategy source ty) (hv : Γ.Yields strategy source v) :
    GrownFrom strategy source (Γ.define x ty v)

/-- The types and values that elaboration gives in a context, and the values of all terms that
are scoped in it. -/
def scopedSource (strategy : Strategy) (Γ : Context) (v : Value) : Prop :=
  Γ.Elaborated strategy v ∨ ∃ n t, Γ.Closes t ∧ Γ.evaluate ⟨strategy, n⟩ t = .ok v

section Scoped

variable {strategy : Strategy} {free : Stop → Prop} (hfree : free .overflow) {Γ : Context}

include hfree

theorem Scoped.given (h : Γ.Scoped (.upTo strategy free)) {v : Value}
    (hv : scopedSource strategy Γ v) :
    (renamed (.upTo strategy free) Γ.inScope).value v v := by
  rcases hv with hv | ⟨n, t, ht, hv⟩
  · exact h.elaborated_upTo hfree hv
  · exact h.evaluated hfree ((closes_iff_related t).1 ht) hv

/-- What a context yields has no free names but those in scope. -/
theorem Scoped.yields (h : Γ.Scoped (.upTo strategy free)) {v : Value}
    (hv : Γ.Yields strategy (scopedSource strategy) v) :
    (renamed (.upTo strategy free) Γ.inScope).value v v := by
  induction hv with
  | given hv => exact h.given hfree hv
  | typeBound hmem => exact h.types hmem
  | bound hmem => exact h.values hmem
  | component _ hw ha ih => exact component_itself ih hw ha
  | member _ hnow _ hr ihty iha =>
    have hb : (Comparison.upTo strategy free).KeepsOperands := .of_forall fun _ => True.intro
    exact member_itself hb rfl ihty hnow iha hr

/-- What a grown context holds has no free names but those in scope. -/
theorem GrownFrom.scoped (hΓ : Γ.GrownFrom strategy (scopedSource strategy)) :
    Γ.Scoped (.upTo strategy free) := by
  induction hΓ with
  | empty => exact scoped_empty _
  | claim _ x hty ih => exact ih.claim x (ih.yields hfree hty)
  | bindFree _ hty hbind ih => exact ih.bindFree (ih.yields hfree hty) hbind
  | define _ x hty hv ih => exact ih.define x (ih.yields hfree hty) (ih.yields hfree hv)

end Scoped

end PieChecker.Context
