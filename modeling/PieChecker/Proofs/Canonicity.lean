import PieChecker.Proofs.Canonicity.Elaboration
import PieChecker.Proofs.Canonicity.NormalForms
import PieChecker.Proofs.Reachable

set_option autoImplicit false

/-!
# Canonicity

In a session without unfinished parts every normal form is closed and made by a constructor of
its type: a number is a numeral, a list is a chain that ends in `nil`, a function is a `λ`.
Nothing has type `Absurd`.

The invariant of such sessions is `Context.Closed`. The types and values in the context have no
free variables, although they were computed with variables for everything that was bound around
them, and all names in scope have closed values.
-/

namespace PieChecker

/-- What canonicity asks of a normal form and of its type. -/
structure Core.IsCanonical (ty t : Core) : Prop where
  closed : ∀ x, t.mentions x = false
  closedType : ∀ x, ty.mentions x = false
  /-- No variable and no stuck elimination is outermost. -/
  head : t.isElimination = false
  consistent : ty ≠ .absurd
  /-- The term is made by a constructor of its type. -/
  form : ty.HasCanonicalForm t

namespace Context

open Likeness

/-- The contexts of sessions whose forms have no unfinished parts. A form that is rejected
leaves the context as it was, so only accepted forms matter. -/
inductive Finished (strategy : Strategy) : Context → Prop where
  | empty : Finished strategy .empty
  | process {Γ Γ' : Context} {n : Nat} {form : Surface.Form} {processed : Processed}
      (hΓ : Finished strategy Γ)
    (hform : form.isFinished = true) (h : Γ.process ⟨strategy, n⟩ form = .ok (processed, Γ')) :
    Finished strategy Γ'

/-- No name is free. -/
def noNames : NameRelation := fun _ _ => False

section Within

variable {K : Comparison} {Γ : Context} {ty v : Value}

theorem Within.claim (h : Γ.Within K noNames) (x : String)
    (hty : (renamed K noNames).value ty ty) :
    (Γ.claim x ty).Within K noNames where
  environment_eq := h.environment_eq
  scope _ _ hab := hab.elim
  types := by
    intro y b hmem
    rcases List.mem_cons.1 hmem with heq | hmem
    · cases heq
      exact hty
    · exact h.types hmem
  values := h.values

theorem Within.define (h : Γ.Within K noNames) (x : String)
    (hty : (renamed K noNames).value ty ty) (hv : (renamed K noNames).value v v) :
    (Γ.define x ty v).Within K noNames where
  environment_eq := by
    show (x, v) :: Γ.environment = valuesOf ((x, .defined ty v) :: Γ.bindings)
    rw [valuesOf_cons, h.environment_eq]
    rfl
  scope _ _ hab := hab.elim
  types := by
    intro y b hmem
    rcases List.mem_cons.1 hmem with heq | hmem
    · cases heq
      exact hty
    · exact h.types hmem
  values := by
    intro y w hmem
    rcases List.mem_cons.1 hmem with heq | hmem
    · cases heq
      exact hv
    · exact h.values hmem

end Within

/-- The invariant of sessions without unfinished parts. -/
structure Closed (strategy : Strategy) (Γ : Context) : Prop where
  /-- Types and values have no free names. -/
  within : Γ.Within (.upToNames strategy) noNames
  /-- The names in scope have closed values. -/
  models : ∃ Θ, Γ.Models [] Θ
  /-- What is claimed has a closed type. -/
  claims : ∀ x ty, (x, .claim ty) ∈ Γ.bindings → ∃ C : Code, C.Denoted ∧ C.RepresentsType [] ty

namespace Closed

variable {strategy : Strategy} {n : Nat} {Γ Γ' : Context} {e : Surface.Expr} {t : Core}
  {ty v : Value}

theorem empty : Closed strategy .empty :=
  ⟨⟨rfl, fun _ _ hab => hab.elim, nofun, nofun⟩, ⟨[], Models.empty⟩, nofun⟩

/-- A claimed type is evaluated without variables. -/
theorem claim (h : Γ.Closed strategy) (he : e.isFinished = true)
    (ht : Γ.isType ⟨strategy, n⟩ e = .ok t) (hv : Γ.evaluate ⟨strategy, n⟩ t = .ok v)
    (x : String) : (Γ.claim x v).Closed strategy := by
  obtain ⟨Θ, hΘ⟩ := h.models
  obtain ⟨C, hC⟩ := ((e.rules_sound _ he).isType hΘ).of_eq_ok ht
  refine ⟨h.within.claim x (h.within.elaborated (.type ht hv)), ⟨Θ, hΘ.claim x v⟩,
    fun y ty hmem => ?_⟩
  rcases List.mem_cons.1 hmem with heq | hmem
  · cases heq
    exact ⟨C, hC.type_denoted hΘ.valid, hΘ.evaluate hC hv⟩
  · exact h.claims y ty hmem

/-- So is what a definition gives. -/
theorem define (h : Γ.Closed strategy) (he : e.isFinished = true) {x : String}
    (hx : (x, .claim ty) ∈ Γ.bindings) (ht : Γ.check ⟨strategy, n⟩ e ty = .ok t)
    (hv : Γ.evaluate ⟨strategy, n⟩ t = .ok v) :
    (Γ.define x ty v).Closed strategy := by
  obtain ⟨Θ, hΘ⟩ := h.models
  obtain ⟨C, hC, hty⟩ := h.claims x ty hx
  obtain ⟨w, hw⟩ := ((e.rules_sound _ he).check hΘ hC hty).of_eq_ok ht
  have hclaimed : Γ.Elaborated strategy ty := .typeBound hx
  refine ⟨h.within.define x (h.within.elaborated hclaimed)
    (h.within.elaborated (.checked hclaimed ht hv)),
    ⟨_, hΘ.define x hC hty (hΘ.evaluate hw hv)⟩, fun y ty hmem => ?_⟩
  rcases List.mem_cons.1 hmem with heq | hmem
  · cases heq
  · exact h.claims y ty hmem

/-- Processing a form without unfinished parts keeps the invariant. -/
theorem process (h : Γ.Closed strategy) {form : Surface.Form} (hform : form.isFinished = true)
    {processed : Processed} (hp : Γ.process ⟨strategy, n⟩ form = .ok (processed, Γ')) :
    Γ'.Closed strategy := by
  cases form with
  | claim site ty =>
    rw [Context.process] at hp
    split at hp
    · cases hp
    · obtain ⟨t, ht, hp⟩ := bind_eq_ok_iff.1 hp
      obtain ⟨v, hv, ⟨⟩⟩ := bind_eq_ok_iff.1 hp
      exact h.claim hform ht (Outcome.unrejected_eq_ok_iff.1 hv) site.name
  | define site term =>
    rw [Context.process] at hp
    split at hp
    · rename_i ty hclaim
      obtain ⟨t, ht, hp⟩ := bind_eq_ok_iff.1 hp
      obtain ⟨v, hv, ⟨⟩⟩ := bind_eq_ok_iff.1 hp
      obtain ⟨before, after, hsplit, _⟩ := List.lookup_eq_some_iff.1 hclaim
      exact h.define hform (by simp [hsplit]) ht (Outcome.unrejected_eq_ok_iff.1 hv)
    · cases hp
    · cases hp
  | checkSame ty left right =>
    rw [Context.process] at hp
    obtain ⟨_, _, hp⟩ := bind_eq_ok_iff.1 hp
    obtain ⟨_, _, hp⟩ := bind_eq_ok_iff.1 hp
    obtain ⟨_, _, hp⟩ := bind_eq_ok_iff.1 hp
    obtain ⟨_, _, hp⟩ := bind_eq_ok_iff.1 hp
    obtain ⟨_, _, hp⟩ := bind_eq_ok_iff.1 hp
    obtain ⟨_, _, hp⟩ := bind_eq_ok_iff.1 hp
    obtain ⟨_, _, ⟨⟩⟩ := bind_eq_ok_iff.1 hp
    exact h
  | expression e =>
    rw [Context.process] at hp
    obtain ⟨_, _, ⟨⟩⟩ := bind_eq_ok_iff.1 hp
    exact h

/-- Terms that are read back in a closed context have no free names. -/
theorem mentions_eq_false (ht : Core.Related (.upToNames strategy) noNames t t) (x : String) :
    t.mentions x = false := by
  cases hx : t.mentions x with
  | false => rfl
  | true =>
    obtain ⟨_, hfalse⟩ := ht.of_mentions hx
    exact hfalse.elim

/-- Normal forms of finished expressions are canonical. -/
theorem normalForm (h : Γ.Closed strategy) (he : e.isFinished = true) {T u : Core}
    (hu : Γ.normalize ⟨strategy, n⟩ e = .ok (.the T u)) : T.IsCanonical u := by
  rw [normalize] at hu
  obtain ⟨⟨t, ty⟩, hfound, hu⟩ := bind_eq_ok_iff.1 hu
  obtain ⟨v, hv, hu⟩ := bind_eq_ok_iff.1 (Outcome.unrejected_eq_ok_iff.1 hu)
  obtain ⟨T, hT, hu⟩ := bind_eq_ok_iff.1 hu
  obtain ⟨u, hu, ⟨⟩⟩ := bind_eq_ok_iff.1 hu
  -- Neither the type nor the value has free variables.
  have hty := h.within.elaborated (.typeFound hfound)
  have hcomparable := Worlds.comparable_upToNames strategy n n
  have hTclosed := (h.within.contexts.readBackType hcomparable hty).of_eq_ok hT hT
  have huclosed := (h.within.contexts.readBack hcomparable hty
    (h.within.elaborated (.found hfound hv))).of_eq_ok hu hu
  -- Both mean something in the instance without names, so neither waits for a variable.
  obtain ⟨Θ, hΘ⟩ := h.models
  obtain ⟨C, w, hC, hw⟩ := ((e.rules_sound _ he).synthesize hΘ).of_eq_ok hfound
  have hdenoted := hw.denoted hΘ.valid
  have hnone : Instance.NamedIn [] Γ.names := nofun
  have hTwaits := (hC.reify hdenoted (.refl []) hnone hT).waits_eq_false
  have hkeeps : C.Keeps [] ty v w := ⟨hdenoted, hC, hΘ.evaluate hw hv⟩
  have huwaits := (hkeeps.reify (.refl []) hnone hu).waits_eq_false
  have hform : T.HasCanonicalForm u := Value.hasCanonicalForm_readBack hT hTwaits hu huwaits
  exact
    { closed := mentions_eq_false huclosed
      closedType := mentions_eq_false hTclosed
      head := Core.isElimination_eq_false hform
      consistent := by
        rintro rfl
        exact hform
      form := hform }

end Closed

theorem Finished.closed {strategy : Strategy} {Γ : Context} (hΓ : Γ.Finished strategy) :
    Γ.Closed strategy := by
  induction hΓ with
  | empty => exact .empty
  | process _ hform hp ih => exact ih.process hform hp

/-- The sessions of programs without unfinished parts. -/
theorem Finished.processAll {strategy : Strategy} {n : Nat} {Γ : Context}
    (hΓ : Γ.Finished strategy) {forms : List Surface.Form}
    (hforms : ∀ form ∈ forms, form.isFinished = true) :
    (Γ.processAll ⟨strategy, n⟩ forms).context.Finished strategy := by
  induction forms generalizing Γ with
  | nil => exact hΓ
  | cons form forms ih =>
    rw [Context.processAll]
    split
    · rename_i h
      exact ih (hΓ.process (hforms form List.mem_cons_self) h) fun form hmem =>
        hforms form (List.mem_cons_of_mem _ hmem)
    · exact hΓ

/-- Canonicity and consistency: in a session without unfinished parts, what processing an
expression returns is closed and made by a constructor of its type, which is not `Absurd`. -/
theorem Finished.canonicity {strategy : Strategy} {Γ Γ' : Context}
    (hΓ : Γ.Finished strategy) {n : Nat} {e : Surface.Expr} (he : e.isFinished = true)
    {T t : Core} {holes : List Hole}
    (h : Γ.process ⟨strategy, n⟩ (.expression e) = .ok (⟨.normalized (.the T t), holes⟩, Γ')) :
    T.IsCanonical t := by
  rw [Context.process] at h
  obtain ⟨u, hu, ⟨⟩⟩ := bind_eq_ok_iff.1 h
  exact hΓ.closed.normalForm he hu

/-- The forms of a program that defines addition by iteration on its first argument. -/
def additionForms : List Surface.Form :=
  [.claim ⟨⟨7, 8⟩, "+"⟩ (.arrow ⟨9, 25⟩ (.const ⟨13, 16⟩ .nat)
    [.const ⟨17, 20⟩ .nat, .const ⟨21, 24⟩ .nat]), .define ⟨⟨35, 36⟩, "+"⟩
      (.lambda ⟨37, 80⟩ [⟨⟨41, 42⟩, "n"⟩, ⟨⟨43, 44⟩, "m"⟩]
        (.ternary ⟨46, 79⟩ .iterNat (.var ⟨56, 57⟩ "n") (.var ⟨58, 59⟩ "m")
          (.lambda ⟨60, 78⟩ [⟨⟨64, 65⟩, "k"⟩] (.unary ⟨67, 75⟩ .add1 (.var ⟨73, 74⟩ "k")))))]

/-- The context after them. -/
def additionSession : Context := (empty.processAll ⟨.onDemand, 20⟩ additionForms).context

/-- The sum of two and one. -/
def additionExpression : Surface.Expr :=
  .apply ⟨81, 88⟩ (.var ⟨82, 83⟩ "+") [.number ⟨84, 85⟩ 2, .number ⟨86, 87⟩ 1]

theorem additionSession_canonicity :
    additionSession.Finished .onDemand ∧ additionExpression.isFinished = true ∧
      additionSession.process ⟨.onDemand, 20⟩ (.expression additionExpression) =
        .ok (⟨.normalized (.the .nat (.numeral 3)), []⟩, additionSession) ∧
      Core.IsCanonical .nat (.numeral 3) := by
  have hforms : ∀ form ∈ additionForms, form.isFinished = true := by decide
  have hsession : additionSession.Finished .onDemand := Finished.empty.processAll hforms
  have hprocess : additionSession.process ⟨.onDemand, 20⟩ (.expression additionExpression) =
      .ok (⟨.normalized (.the .nat (.numeral 3)), []⟩, additionSession) := rfl
  exact ⟨hsession, rfl, hprocess, hsession.canonicity rfl hprocess⟩

end Context

end PieChecker
