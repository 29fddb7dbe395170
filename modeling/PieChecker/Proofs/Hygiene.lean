import PieChecker.Proofs.Postcondition
import PieChecker.Proofs.Simulation.Scope
import PieChecker.Typing.Rules

set_option autoImplicit false

/-!
# Hygiene

No binder of a term that elaboration or read-back returns has a name that is in use where the
term is returned, or the name of a binder around it. So names never clash: a term may be placed
below any binder of its context, and no variable in it is captured.

Names are chosen in four places: by read-back for the binders of functions and of types, and by
elaboration for the binders that the program writes and for those that it introduces itself. All
of them avoid the names in use, and parts of a term that were made below a binder were made with
the name of that binder in use. For the same reason no binder is ever rejected because its name
is taken.
-/

namespace PieChecker

/-- No binder of a term has one of the given names or the name of a binder around it. -/
def Core.Hygienic (names : List String) : Core → Prop
  | var _ | const _ | quote _ => True
  | todo _ ty => ty.Hygienic names
  | quant _ x base family => x ∉ names ∧ base.Hygienic names ∧ family.Hygienic (x :: names)
  | lam x body => x ∉ names ∧ body.Hygienic (x :: names)
  | unary _ a => a.Hygienic names
  | binary _ a b => a.Hygienic names ∧ b.Hygienic names
  | ternary _ a b c => a.Hygienic names ∧ b.Hygienic names ∧ c.Hygienic names
  | quaternary _ a b c d =>
    a.Hygienic names ∧ b.Hygienic names ∧ c.Hygienic names ∧ d.Hygienic names
  | indVec l t m b s =>
    l.Hygienic names ∧ t.Hygienic names ∧ m.Hygienic names ∧ b.Hygienic names ∧ s.Hygienic names

theorem Core.hygienic_numeral (names : List String) (n : Nat) : (numeral n).Hygienic names := by
  induction n with
  | zero => exact True.intro
  | succ n ih => exact ih

/-! ## Read-back -/

section ReadBack

variable {strategy : Strategy}

/-- What is promised of read-back. -/
abbrev Outcome.Hygienic (names : List String) : Outcome Core → Prop :=
  Ends (fun _ => True) (Core.Hygienic names)

/-- Read-back with the given fuel returns hygienic terms, whatever it is given. -/
structure HygienicReadBack (strategy : Strategy) (n : Nat) : Prop where
  value : ∀ names ty v, Outcome.Hygienic names (Value.readBack strategy n names ty v)
  type : ∀ names ty, Outcome.Hygienic names (Value.readBackType strategy n names ty)
  neutral : ∀ names e, Outcome.Hygienic names (Neutral.readBack strategy n names e)

theorem Name.freshen_ends (names : List String) (x : String) :
    Ends (fun _ => True) (fun y => y ∉ names) (Name.freshen names x) :=
  .of_forall (fun _ h => freshen_not_mem h) fun _ _ => True.intro

/-- A step of which nothing needs to be known. -/
theorem Outcome.ends (α : Type) (r : Outcome α) : Ends (fun _ => True) (fun _ : α => True) r :=
  .of_forall (fun _ _ => True.intro) fun _ _ => True.intro

namespace HygienicReadBack

variable {n : Nat} (h : HygienicReadBack strategy n) (names : List String)

include h

/-- A value that carries its type is read back like any other. -/
theorem normal (a : Normal) :
    Outcome.Hygienic names
      (match a with | ⟨ty, v⟩ => Value.readBack strategy n names ty v) := by
  cases a
  exact h.value names _ _

/-- One step of reading a stuck elimination back. -/
theorem neutral_succ (e : Neutral) :
    Outcome.Hygienic names (e.readBack strategy (n + 1) names) := by
  have normal := h.normal names
  cases e with
  | var x => exact True.intro
  | todo s ty => exact (h.type names ty).bind fun _ ht => .of_ok ht
  | project o e => exact (h.neutral names e).bind fun _ ht => .of_ok ht
  | apply e a =>
    exact (h.neutral names e).bind fun _ ht => (normal a).bind fun _ ha => .of_ok ⟨ht, ha⟩
  | recursor o e base step =>
    obtain ⟨ty, base⟩ := base
    exact (h.neutral names e).bind fun _ ht => (h.type names ty).bind fun _ hr =>
      (h.value names ty base).bind fun _ hb => (normal step).bind fun _ hs =>
        .of_ok ⟨ht, hr, hb, hs⟩
  | transport o e motive base =>
    exact (h.neutral names e).bind fun _ ht => (normal motive).bind fun _ hm =>
      (normal base).bind fun _ hb =>
      .of_ok ⟨ht, hm, hb⟩
  | induct o e motive first second =>
    exact (h.neutral names e).bind fun _ ht => (normal motive).bind fun _ hm =>
      (normal first).bind fun _ hb =>
      (normal second).bind fun _ hs => .of_ok ⟨ht, hm, hb, hs⟩
  | indAbsurd e motive =>
    exact (h.neutral names e).bind fun _ ht => (normal motive).bind fun _ hm =>
      .of_ok ⟨⟨True.intro, ht⟩, hm⟩
  | cong e result function =>
    exact (h.neutral names e).bind fun _ ht => (normal result).bind fun _ hr =>
      (normal function).bind fun _ hf =>
      .of_ok ⟨ht, hr, hf⟩
  | transLeft e right =>
    exact (h.neutral names e).bind fun _ ht => (normal right).bind fun _ hr => .of_ok ⟨ht, hr⟩
  | transRight left e =>
    exact (normal left).bind fun _ hl => (h.neutral names e).bind fun _ ht => .of_ok ⟨hl, ht⟩
  | transBoth e e' =>
    exact (h.neutral names e).bind fun _ ht => (h.neutral names e').bind fun _ hr =>
      .of_ok ⟨ht, hr⟩
  | indVecTarget length e motive base step =>
    exact (normal length).bind fun _ hl => (h.neutral names e).bind fun _ ht =>
      (normal motive).bind fun _ hm =>
      (normal base).bind fun _ hb => (normal step).bind fun _ hs => .of_ok ⟨hl, ht, hm, hb, hs⟩
  | indVecBoth length e motive base step =>
    exact (h.neutral names length).bind fun _ hl => (h.neutral names e).bind fun _ ht =>
      (normal motive).bind fun _ hm => (normal base).bind fun _ hb =>
        (normal step).bind fun _ hs =>
        .of_ok ⟨hl, ht, hm, hb, hs⟩

/-- One step of reading a type back. -/
theorem type_succ (ty : Value) :
    Outcome.Hygienic names (ty.readBackType strategy (n + 1) names) := by
  refine (Outcome.ends _ ty.now).bind fun T _ => ?_
  split
  · exact True.intro
  · exact True.intro
  · exact True.intro
  · exact True.intro
  · exact True.intro
  · -- the family is read back with the name of its binder in use
    refine (Name.freshen_ends names _).bind fun y hy => (h.type names _).bind fun _ hb => ?_
    refine (Outcome.ends _ _).bind fun _ _ => ?_
    exact (h.type (y :: names) _).bind fun _ hf => .of_ok ⟨hy, hb, hf⟩
  · exact (h.type names _).bind fun _ ht => .of_ok ht
  · exact (h.type names _).bind fun _ ht => (h.value names _ _).bind fun _ hl =>
      (h.value names _ _).bind fun _ hr =>
      .of_ok ⟨ht, hl, hr⟩
  · exact (h.type names _).bind fun _ ht => (h.value names _ _).bind fun _ hl => .of_ok ⟨ht, hl⟩
  · exact (h.type names _).bind fun _ hl => (h.type names _).bind fun _ hr => .of_ok ⟨hl, hr⟩
  · exact h.neutral names _
  · exact True.intro

/-- One step of reading a value back. -/
theorem value_succ (ty v : Value) :
    Outcome.Hygienic names (ty.readBack strategy (n + 1) names v) := by
  refine (Outcome.ends _ ty.now).bind fun T _ => (Outcome.ends _ v.now).bind fun v _ => ?_
  split
  · exact h.type names _
  · exact True.intro
  · exact (h.value names _ _).bind fun _ ht => .of_ok ht
  · -- the body is read back with the name of its binder in use
    refine (Name.freshen_ends names _).bind fun y hy => (Outcome.ends _ _).bind fun _ _ => ?_
    refine (Outcome.ends _ _).bind fun _ _ => ?_
    exact (h.value (y :: names) _ _).bind fun _ hb => .of_ok ⟨hy, hb⟩
  · refine (Outcome.ends _ _).bind fun _ _ => (Outcome.ends _ _).bind fun _ _ =>
      (Outcome.ends _ _).bind fun _ _ => ?_
    exact (h.value names _ _).bind fun _ hd => (h.value names _ _).bind fun _ ha =>
      .of_ok ⟨ha, hd⟩
  · exact True.intro
  · exact True.intro
  · exact True.intro
  · exact (h.value names _ _).bind fun _ ha => (h.value names _ _).bind fun _ hd =>
      .of_ok ⟨ha, hd⟩
  · exact (h.neutral names _).bind fun _ ht => .of_ok ⟨True.intro, ht⟩
  · exact True.intro
  · exact (h.value names _ _).bind fun _ ht => .of_ok ht
  · exact True.intro
  · refine (Outcome.ends _ _).bind fun _ _ => ?_
    split
    · exact (h.value names _ _).bind fun _ ha => (h.value names _ _).bind fun _ hd =>
        .of_ok ⟨ha, hd⟩
    · exact True.intro
  · exact (h.value names _ _).bind fun _ ht => .of_ok ht
  · exact (h.value names _ _).bind fun _ ht => .of_ok ht
  · exact h.neutral names _
  · exact True.intro

end HygienicReadBack

/-- Read-back returns hygienic terms with any fuel. -/
theorem hygienicReadBack (strategy : Strategy) (n : Nat) : HygienicReadBack strategy n := by
  induction n with
  | zero => exact ⟨fun _ _ _ => True.intro, fun _ _ => True.intro, fun _ _ => True.intro⟩
  | succ n h => exact ⟨h.value_succ, h.type_succ, h.neutral_succ⟩

end ReadBack

/-! ## Elaboration -/

/-- A cause other than that the name of a binder is taken. -/
def Cause.NotDuplicate (cause : Cause) : Prop := ∀ x, cause ≠ .duplicateBinding x

/-- An interrupt is a stop, or a rejection for a permitted reason. -/
def Interrupt.Permitted {ε : Type} (permitted : ε → Prop) : Interrupt ε → Prop
  | .rejected reason => permitted reason
  | .stopped _ => True

/-- What is promised of comparisons: they do not complain about the name of a binder. -/
abbrev Compares {α : Type} (promised : α → Prop) : Except (Interrupt Cause) α → Prop :=
  Ends (Interrupt.Permitted Cause.NotDuplicate) promised

namespace Checked

variable {α : Type}

/-- What is promised of elaboration: a result as described, and no binder is rejected because
its name is taken. -/
abbrev Clean (promised : α → Prop) : Checked α → Prop :=
  Ends (Interrupt.Permitted fun e => e.cause.NotDuplicate) promised

variable {promised : α → Prop}

/-- A step that rejects nothing. -/
theorem clean_lift {ε : Type} {permitted : ε → Prop} {r : Outcome α}
    (h : Ends (fun _ => True) promised r) :
    Ends (Interrupt.Permitted permitted) promised (r.unrejected : Except (Interrupt ε) α) := by
  cases r with
  | ok a => exact h
  | error s => exact True.intro

/-- A step that rejects nothing and of whose result nothing needs to be known. -/
theorem clean_unrejected {ε : Type} {permitted : ε → Prop} (r : Outcome α) :
    Ends (Interrupt.Permitted permitted) (fun _ : α => True)
      (r.unrejected : Except (Interrupt ε) α) :=
  clean_lift (Outcome.ends α r)

theorem clean_locate (span : Span) {r : Except (Interrupt Cause) α} (h : Compares promised r) :
    Clean promised (locate span r) := by
  cases r with
  | ok a => exact h
  | error e =>
    cases e with
    | rejected cause => exact h
    | stopped s => exact True.intro

end Checked

open Checked

namespace Context

variable (E : Engine) (Γ : Context)

theorem readBackType_hygienic (ty : Value) : Outcome.Hygienic Γ.names (Γ.readBackType E ty) :=
  (hygienicReadBack E.strategy E.fuel).type Γ.names ty

theorem readBack_hygienic (ty v : Value) : Outcome.Hygienic Γ.names (Γ.readBack E ty v) :=
  (hygienicReadBack E.strategy E.fuel).value Γ.names ty v

theorem convert_compares (ty left right : Value) :
    Compares (fun _ => True) (Γ.convert E ty left right) := by
  refine (clean_unrejected (Γ.readBack E ty left)).bind fun l _ => ?_
  refine (clean_unrejected (Γ.readBack E ty right)).bind fun r _ => ?_
  split
  · exact True.intro
  · exact (clean_unrejected (Γ.readBackType E ty)).bind fun t _ => nofun

theorem sameType_compares (expected found : Value) :
    Compares (fun _ => True) (Γ.sameType E expected found) := by
  refine (clean_unrejected (Γ.readBackType E expected)).bind fun l _ => ?_
  refine (clean_unrejected (Γ.readBackType E found)).bind fun r _ => ?_
  split
  · exact True.intro
  · exact nofun

end Context

namespace Scope

variable (S : Scope)

/-- A binder that the program writes gets a name that is not in use, and it is in use below the
binder. -/
theorem bind_clean (site : Surface.Site) (ty : Value) :
    Clean (fun p => p.1 ∉ S.context.names ∧ p.2.context.names = p.1 :: S.context.names)
      (S.bind site ty) := by
  refine (clean_lift (Name.freshen_ends S.context.names site.name)).bind fun x hx => ?_
  rw [Context.bindFree_of_not_mem hx]
  exact ⟨hx, rfl⟩

theorem bindHidden_clean {x : String} (hx : x ∉ S.context.names) (ty : Value) (span : Span) :
    Clean (fun S' => S'.context.names = x :: S.context.names) (S.bindHidden x ty span) := by
  rw [bindHidden, Context.bindFree_of_not_mem hx]
  show x :: S.context.names = x :: S.context.names
  rfl

theorem rejectFormer_clean {α : Type} {promised : α → Prop} (E : Engine) (span : Span)
    (former : Former) (found : Value) : Clean promised (S.rejectFormer E span former found) :=
  (clean_unrejected (S.context.readBackType E found)).bind fun _ _ => nofun

theorem rejectLength_clean {α : Type} {promised : α → Prop} (E : Engine) (span : Span)
    (shape : LengthShape) (length : Value) :
    Clean promised (S.rejectLength E span shape length) :=
  (clean_unrejected (S.context.readBack E .nat length)).bind fun _ _ => nofun

/-- A name without a meaning is rejected as such. -/
theorem reference_clean (span : Span) (x : String) :
    Clean (fun _ => True) (locateError span (S.reference x)) := by
  cases hy : S.resolve x with
  | error cause =>
    rw [reference_of_resolve_error hy]
    rw [resolve] at hy
    split at hy
    · cases hy
    · split at hy
      · cases hy
        intro y h
        cases h
      · cases hy
  | ok y =>
    rw [reference_of_resolve hy, Context.lookupType]
    split
    · exact True.intro
    · intro y h
      cases h

end Scope

namespace Rules

/-- The three readings of an expression return hygienic terms, in all scopes. -/
structure Hygienic (r : Rules) : Prop where
  synthesize : ∀ S, Clean (fun p => p.1.Hygienic S.context.names) (r.synthesize S)
  check : ∀ S ty, Clean (Core.Hygienic S.context.names) (r.check S ty)
  isType : ∀ S, Clean (Core.Hygienic S.context.names) (r.isType S)

theorem Hygienic.component {a : Part} (ha : a.rules.Hygienic) (c : Component) (S : Scope) :
    Clean (Core.Hygienic S.context.names) (a.component c S) := by
  cases c with
  | type => exact ha.isType S
  | ofUniverse => exact ha.check S .univ

section Patterns

variable {E : Engine} {span : Span}

theorem asType_clean {check : Scope → Value → Checked Core} {S : Scope}
    (h : Clean (Core.Hygienic S.context.names) (check S .univ)) :
    Clean (Core.Hygienic S.context.names) (asType span check S) := by
  rw [asType]
  split
  · split
    · intro _ hcause
      cases hcause
    · intro _ hcause
      cases hcause
  · exact h

theorem checkFound_clean {find : Scope → Checked (Core × Value)} {S : Scope}
    (h : Clean (fun p => p.1.Hygienic S.context.names) (find S)) (ty : Value) :
    Clean (Core.Hygienic S.context.names) (checkFound E span find S ty) := by
  refine (clean_unrejected ty.now).bind fun T _ => h.bind fun ⟨t, found⟩ ht => ?_
  exact (clean_locate span (S.context.sameType_compares E T found)).bind fun _ _ => .of_ok ht

theorem inferred_hygienic {find : Scope → Checked (Core × Value)}
    (h : ∀ S, Clean (fun p => p.1.Hygienic S.context.names) (find S)) :
    (inferred E span find).Hygienic where
  synthesize := h
  check S ty := checkFound_clean (h S) ty
  isType S := asType_clean (checkFound_clean (h S) .univ)

theorem former_hygienic {build : Component → Scope → Checked Core}
    (h : ∀ c S, Clean (Core.Hygienic S.context.names) (build c S)) :
    (former E span build).Hygienic := by
  have hfind : ∀ S, Clean (fun p => p.1.Hygienic S.context.names)
      ((former E span build).synthesize S) :=
    fun S => (h .ofUniverse S).bind fun t ht => .of_ok ht
  exact ⟨hfind, fun S ty => checkFound_clean (hfind S) ty, h .type⟩

theorem checked_hygienic {check : Scope → Value → Checked Core}
    (h : ∀ S ty, Clean (Core.Hygienic S.context.names) (check S ty)) :
    (checked span check).Hygienic := by
  have hcheck : ∀ S ty, Clean (Core.Hygienic S.context.names)
      ((checked span check).check S ty) :=
    fun S ty => (clean_unrejected ty.now).bind fun T _ => h S T
  exact ⟨fun S => nofun, hcheck, fun S => asType_clean (hcheck S .univ)⟩

theorem univ_hygienic : (univ E span).Hygienic := by
  have hfind : ∀ S, Clean (fun p => p.1.Hygienic S.context.names)
      ((univ E span).synthesize S) := fun _ => nofun
  exact ⟨hfind, fun S ty => checkFound_clean (hfind S) ty, fun _ => True.intro⟩

/-! ### Parts with a type of a given form -/

theorem findFormer_clean {α : Type} {a : Part} (ha : a.rules.Hygienic) (former : Former)
    (parts? : Value → Option α) (S : Scope) :
    Clean (fun p => p.1.Hygienic S.context.names) (findFormer E a former parts? S) := by
  refine (ha.synthesize S).bind fun ⟨t, ty⟩ ht => (clean_unrejected ty.now).bind fun T _ => ?_
  split
  · exact ht
  · exact S.rejectFormer_clean E a.span former T

theorem findNonempty_clean {a : Part} (ha : a.rules.Hygienic) (S : Scope) :
    Clean (fun p => p.1.Hygienic S.context.names) (findNonempty E a S) := by
  refine (findFormer_clean ha .vec _ S).bind fun ⟨t, entry, length⟩ ht => ?_
  refine (clean_unrejected length.now).bind fun l _ => ?_
  split
  · exact ht
  · exact S.rejectLength_clean E a.span .successor _

theorem checkMotive_clean {a : Part} (ha : a.rules.Hygienic) (S : Scope) (ty : Value) :
    Clean (fun p => p.1.Hygienic S.context.names) (checkMotive E a S ty) := by
  have h := ha.check S ty
  rw [checkMotive]
  split
  · rename_i heq
    exact (clean_unrejected _).bind fun _ _ => .of_ok (h.of_eq_ok heq)
  · rename_i heq
    split
    · exact (clean_unrejected _).bind fun _ _ => nofun
    · exact (clean_unrejected _).bind fun _ _ => nofun
    · exact (clean_unrejected _).bind fun _ _ => nofun
    · exact h.of_eq_error heq
  · exact True.intro

/-! ### Binders -/

theorem nondependent_clean (q : Quantifier) (c : Component) {domain : Part}
    (hd : domain.rules.Hygienic) {rest : List Part} (hrest : ∀ a ∈ rest, a.rules.Hygienic)
    (S : Scope) :
    Clean (Core.Hygienic S.context.names) (nondependent E q c domain rest S) := by
  induction rest generalizing domain S with
  | nil => exact hd.component c S
  | cons codomain rest ih =>
    refine (clean_lift (Name.freshen_ends _ "x")).bind fun x hx => (hd.component c S).bind
      fun base hbase => ?_
    have hnew : x ∉ S.context.names := fun h => hx (List.mem_append_left _ h)
    refine (clean_unrejected _).bind fun v _ => (S.bindHidden_clean hnew v domain.span).bind
      fun inner hinner => ?_
    have hfamily := ih (hrest codomain List.mem_cons_self)
      (fun a ha => hrest a (List.mem_cons_of_mem _ ha)) inner
    rw [hinner] at hfamily
    exact hfamily.bind fun family hf => .of_ok ⟨hnew, hbase, hf⟩

theorem telescope_clean (q : Quantifier) (c : Component) {body : Part}
    (hbody : body.rules.Hygienic) {binders : List (Surface.Site × Part)}
    (hbinders : ∀ b ∈ binders, b.2.rules.Hygienic) (S : Scope) :
    Clean (Core.Hygienic S.context.names) (telescope E q c body binders S) := by
  induction binders generalizing S with
  | nil => exact hbody.component c S
  | cons binder binders ih =>
    obtain ⟨site, ty⟩ := binder
    have hty : ty.rules.Hygienic := hbinders (site, ty) List.mem_cons_self
    refine (hty.component c S).bind fun base hbase => (clean_unrejected _).bind fun v _ => ?_
    refine (S.bind_clean site v).bind fun ⟨x, inner⟩ ⟨hx, hinner⟩ => ?_
    have hfamily := ih (fun b hb => hbinders b (List.mem_cons_of_mem _ hb)) inner
    rw [hinner] at hfamily
    exact hfamily.bind fun family hf => .of_ok ⟨hx, hbase, hf⟩

theorem checkLambda_clean {body : Part} (hbody : body.rules.Hygienic)
    (sites : List Surface.Site) (S : Scope) (ty : Value) :
    Clean (Core.Hygienic S.context.names) (checkLambda E span body sites S ty) := by
  induction sites generalizing S ty with
  | nil => exact hbody.check S ty
  | cons site sites ih =>
    unfold checkLambda
    split
    · rename_i base family
      refine (S.bind_clean site base).bind fun ⟨x, inner⟩ ⟨hx, hinner⟩ => ?_
      refine (clean_unrejected _).bind fun r _ => (clean_unrejected r.now).bind
        fun codomain _ => ?_
      have hlam := ih inner codomain
      rw [hinner] at hlam
      exact hlam.bind fun t ht => .of_ok ⟨hx, ht⟩
    · exact S.rejectFormer_clean E span .pi _

theorem applyTo_clean {arguments : List Part} (harguments : ∀ a ∈ arguments, a.rules.Hygienic)
    (S : Scope) {function : Core} (hf : function.Hygienic S.context.names) (ty : Value) :
    Clean (fun p => p.1.Hygienic S.context.names) (applyTo E span arguments S function ty) := by
  induction arguments generalizing function ty with
  | nil => exact hf
  | cons argument arguments ih =>
    refine (clean_unrejected ty.now).bind fun T _ => ?_
    split
    · rename_i base family
      refine ((harguments argument List.mem_cons_self).check S base).bind fun a ha => ?_
      refine (clean_unrejected _).bind fun v _ => (clean_unrejected _).bind fun result _ => ?_
      have happly : Core.Hygienic S.context.names (.apply function a) := ⟨hf, ha⟩
      exact ih (fun b hb => harguments b (List.mem_cons_of_mem _ hb)) happly result
    · exact S.rejectFormer_clean E span .pi _

/-! ### Rules by the number of parts -/

theorem const_hygienic (c : Const) : (const E span c).Hygienic := by
  cases c with
  | univ => exact univ_hygienic
  | nat | atom | trivial | absurd =>
    rw [const]
    exact former_hygienic fun _ _ => True.intro
  | zero | sole => exact inferred_hygienic fun _ => True.intro
  | nil =>
    refine checked_hygienic fun S ty => ?_
    split
    · exact True.intro
    · exact S.rejectFormer_clean E span .list _
  | vecnil =>
    refine checked_hygienic fun S ty => ?_
    split
    · refine (clean_unrejected _).bind fun l _ => ?_
      split
      · exact True.intro
      · exact S.rejectLength_clean E span .zero _
    · exact S.rejectFormer_clean E span .vec _

theorem todo_hygienic : (todo E span).Hygienic :=
  checked_hygienic fun S ty => (clean_lift (S.context.readBackType_hygienic E ty)).bind
    fun _ ht => .of_ok ht

theorem var_hygienic (x : String) : (var E span x).Hygienic :=
  inferred_hygienic fun S => (S.reference_clean span x).bind fun _ _ => True.intro

theorem number_hygienic (n : Nat) : (number E span n).Hygienic := by
  refine inferred_hygienic fun S => ?_
  split
  · exact nofun
  · exact Core.hygienic_numeral S.context.names n

theorem quote_hygienic (a : String) : (quote E span a).Hygienic :=
  inferred_hygienic fun _ => True.intro

theorem unary_hygienic (o : Unary) {a : Part} (ha : a.rules.Hygienic) :
    (unary E span o a).Hygienic := by
  cases o with
  | add1 => exact inferred_hygienic fun S => (ha.check S .nat).bind fun _ ht => .of_ok ht
  | car =>
    exact inferred_hygienic fun S => (findFormer_clean ha .sigma _ S).bind fun ⟨_, _, _⟩ ht =>
      .of_ok ht
  | cdr =>
    refine inferred_hygienic fun S => (findFormer_clean ha .sigma _ S).bind
      fun ⟨_, _, _⟩ ht => ?_
    refine (clean_unrejected _).bind fun _ _ => (clean_unrejected _).bind fun _ _ => ?_
    exact (clean_unrejected _).bind fun _ _ => .of_ok ht
  | list =>
    rw [unary]
    exact former_hygienic fun c S => (ha.component c S).bind fun _ ht => .of_ok ht
  | same =>
    refine checked_hygienic fun S ty => ?_
    split
    · refine (ha.check S _).bind fun t ht => (clean_unrejected _).bind fun v _ => ?_
      refine (clean_locate span (S.context.convert_compares E _ _ _)).bind fun _ _ => ?_
      exact (clean_locate span (S.context.convert_compares E _ _ _)).bind fun _ _ => .of_ok ht
    · exact S.rejectFormer_clean E span .equal _
  | symm =>
    exact inferred_hygienic fun S => (findFormer_clean ha .equal _ S).bind
      fun ⟨_, _, _, _⟩ ht => .of_ok ht
  | head =>
    exact inferred_hygienic fun S => (findNonempty_clean ha S).bind fun ⟨_, _, _⟩ ht =>
      .of_ok ht
  | tail =>
    exact inferred_hygienic fun S => (findNonempty_clean ha S).bind fun ⟨_, _, _⟩ ht =>
      .of_ok ht
  | left | right =>
    refine checked_hygienic fun S ty => ?_
    split
    · exact (ha.check S _).bind fun _ ht => .of_ok ht
    · exact S.rejectFormer_clean E span .either _

theorem binary_hygienic (o : Surface.Binary) {a b : Part} (ha : a.rules.Hygienic)
    (hb : b.rules.Hygienic) :
    (binary E span o a b).Hygienic := by
  cases o with
  | the =>
    refine inferred_hygienic fun S => (ha.isType S).bind fun ty hty => (clean_unrejected _).bind
      fun v _ => ?_
    exact (hb.check S v).bind fun t ht => .of_ok ⟨hty, ht⟩
  | pair =>
    rw [binary]
    refine former_hygienic fun c S => nondependent_clean .sigma c ha ?_ S
    rintro _ (_ | ⟨_, ⟨⟩⟩)
    exact hb
  | cons =>
    refine checked_hygienic fun S ty => ?_
    split
    · refine (ha.check S _).bind fun t ht => (clean_unrejected _).bind fun _ _ =>
        (clean_unrejected _).bind fun T _ => ?_
      exact (hb.check S T).bind fun u hu => .of_ok ⟨ht, hu⟩
    · exact S.rejectFormer_clean E span .sigma _
  | listCons =>
    refine inferred_hygienic fun S => (ha.synthesize S).bind fun ⟨t, entry⟩ ht => ?_
    exact (hb.check S (.list entry)).bind fun u hu => .of_ok ⟨ht, hu⟩
  | indAbsurd =>
    refine inferred_hygienic fun S => (ha.check S _).bind fun t ht =>
      (hb.isType S).bind fun p hp => ?_
    exact (clean_unrejected _).bind fun _ _ => .of_ok ⟨ht, hp⟩
  | trans =>
    refine inferred_hygienic fun S => (findFormer_clean ha .equal _ S).bind
      fun ⟨t, _, _, _⟩ ht => ?_
    refine (findFormer_clean hb .equal _ S).bind fun ⟨u, _, _, _⟩ hu => ?_
    refine (clean_locate _ (S.context.sameType_compares E _ _)).bind fun _ _ => ?_
    exact (clean_locate _ (S.context.convert_compares E _ _ _)).bind fun _ _ => .of_ok ⟨ht, hu⟩
  | cong =>
    refine inferred_hygienic fun S => (findFormer_clean ha .equal _ S).bind
      fun ⟨t, _, _, _⟩ ht => ?_
    refine (findFormer_clean hb .pi _ S).bind fun ⟨f, _, _⟩ hf => ?_
    refine (clean_locate _ (S.context.sameType_compares E _ _)).bind fun _ _ => ?_
    refine (clean_unrejected _).bind fun result _ => (clean_unrejected _).bind fun _ _ => ?_
    refine (clean_unrejected _).bind fun _ _ => (clean_unrejected _).bind fun _ _ => ?_
    exact (clean_lift (S.context.readBackType_hygienic E result)).bind fun r hr =>
      .of_ok ⟨ht, hr, hf⟩
  | vec =>
    rw [binary]
    exact former_hygienic fun c S => (ha.component c S).bind fun t ht =>
      (hb.check S .nat).bind fun u hu =>
      .of_ok ⟨ht, hu⟩
  | vecCons =>
    refine checked_hygienic fun S ty => ?_
    split
    · refine (clean_unrejected _).bind fun l _ => ?_
      split
      · exact (ha.check S _).bind fun t ht => (hb.check S _).bind fun u hu => .of_ok ⟨ht, hu⟩
      · exact S.rejectLength_clean E span .successor _
    · exact S.rejectFormer_clean E span .vec _
  | either =>
    rw [binary]
    exact former_hygienic fun c S => (ha.component c S).bind fun t ht =>
      (hb.component c S).bind fun u hu =>
      .of_ok ⟨ht, hu⟩

theorem natRecursor_hygienic (o : Core.Quaternary) (stepType : Value → Value) {a b c : Part}
    (ha : a.rules.Hygienic) (hb : b.rules.Hygienic) (hc : c.rules.Hygienic) :
    (natRecursor E span o stepType a b c).Hygienic := by
  refine inferred_hygienic fun S => (ha.check S .nat).bind fun t ht => ?_
  refine (hb.synthesize S).bind fun ⟨b, result⟩ hb => (hc.check S (stepType result)).bind
    fun p hp => ?_
  exact (clean_lift (S.context.readBackType_hygienic E result)).bind fun r hr =>
    .of_ok ⟨ht, hr, hb, hp⟩

theorem ternary_hygienic (o : Surface.Ternary) {a b c : Part} (ha : a.rules.Hygienic)
    (hb : b.rules.Hygienic) (hc : c.rules.Hygienic) : (ternary E span o a b c).Hygienic := by
  cases o with
  | whichNat | iterNat | recNat => exact natRecursor_hygienic _ _ ha hb hc
  | recList =>
    refine inferred_hygienic fun S => (findFormer_clean ha .list _ S).bind
      fun ⟨t, entry⟩ ht => ?_
    refine (hb.synthesize S).bind fun ⟨b, result⟩ hb => (hc.check S _).bind fun p hp => ?_
    exact (clean_lift (S.context.readBackType_hygienic E result)).bind fun r hr =>
      .of_ok ⟨ht, hr, hb, hp⟩
  | equal =>
    rw [ternary]
    refine former_hygienic fun component S => (ha.component component S).bind fun t ht => ?_
    refine (clean_unrejected _).bind fun v _ => (hb.check S v).bind fun l hl => ?_
    exact (hc.check S v).bind fun r hr => .of_ok ⟨ht, hl, hr⟩
  | replace =>
    refine inferred_hygienic fun S => (findFormer_clean ha .equal _ S).bind
      fun ⟨t, _, _, _⟩ ht => ?_
    refine (checkMotive_clean hb S _).bind fun ⟨p, _⟩ hp => (clean_unrejected _).bind
      fun T _ => ?_
    refine (hc.check S T).bind fun b hb => ?_
    exact (clean_unrejected _).bind fun _ _ => .of_ok ⟨ht, hp, hb⟩
  | indEq =>
    refine inferred_hygienic fun S => (findFormer_clean ha .equal _ S).bind
      fun ⟨t, _, _, _⟩ ht => ?_
    refine (checkMotive_clean hb S _).bind fun ⟨p, _⟩ hp => (clean_unrejected _).bind
      fun _ _ => ?_
    refine (clean_unrejected _).bind fun T _ => (hc.check S T).bind fun b hb => ?_
    refine (clean_unrejected _).bind fun _ _ => (clean_unrejected _).bind fun _ _ => ?_
    exact (clean_unrejected _).bind fun _ _ => .of_ok ⟨ht, hp, hb⟩

theorem quaternary_hygienic (o : Surface.Quaternary) {a b c d : Part} (ha : a.rules.Hygienic)
    (hb : b.rules.Hygienic) (hc : c.rules.Hygienic) (hd : d.rules.Hygienic) :
    (quaternary E span o a b c d).Hygienic := by
  cases o with
  | indNat =>
    refine inferred_hygienic fun S => (ha.check S .nat).bind fun t ht => ?_
    refine (checkMotive_clean hb S _).bind fun ⟨p, _⟩ hp => (clean_unrejected _).bind
      fun T _ => ?_
    refine (hc.check S T).bind fun b hb => (hd.check S _).bind fun q hq =>
      (clean_unrejected _).bind fun _ _ => ?_
    exact (clean_unrejected _).bind fun _ _ => .of_ok ⟨ht, hp, hb, hq⟩
  | indList =>
    refine inferred_hygienic fun S => (findFormer_clean ha .list _ S).bind fun ⟨t, _⟩ ht => ?_
    refine (checkMotive_clean hb S _).bind fun ⟨p, _⟩ hp => (clean_unrejected _).bind
      fun T _ => ?_
    refine (hc.check S T).bind fun b hb => (hd.check S _).bind fun q hq =>
      (clean_unrejected _).bind fun _ _ => ?_
    exact (clean_unrejected _).bind fun _ _ => .of_ok ⟨ht, hp, hb, hq⟩
  | indEither =>
    refine inferred_hygienic fun S => (findFormer_clean ha .either _ S).bind
      fun ⟨t, _, _⟩ ht => ?_
    refine (checkMotive_clean hb S _).bind fun ⟨p, _⟩ hp => (hc.check S _).bind fun l hl => ?_
    refine (hd.check S _).bind fun r hr => (clean_unrejected _).bind fun _ _ => ?_
    exact (clean_unrejected _).bind fun _ _ => .of_ok ⟨ht, hp, hl, hr⟩

theorem indVec_hygienic {l t p b q : Part} (hl : l.rules.Hygienic) (ht : t.rules.Hygienic)
    (hp : p.rules.Hygienic) (hb : b.rules.Hygienic) (hq : q.rules.Hygienic) :
    (indVec E span l t p b q).Hygienic := by
  refine inferred_hygienic fun S => (hl.check S .nat).bind fun l hl => (clean_unrejected _).bind
    fun _ _ => ?_
  refine (findFormer_clean ht .vec _ S).bind fun ⟨t, _, _⟩ ht => ?_
  refine (clean_locate _ (S.context.convert_compares E _ _ _)).bind fun _ _ => ?_
  refine (checkMotive_clean hp S _).bind fun ⟨p, _⟩ hp => (clean_unrejected _).bind
    fun _ _ => ?_
  refine (clean_unrejected _).bind fun T _ => (hb.check S T).bind fun b hb =>
    (hq.check S _).bind fun q hq => ?_
  refine (clean_unrejected _).bind fun _ _ => (clean_unrejected _).bind fun _ _ => ?_
  exact (clean_unrejected _).bind fun _ _ => .of_ok ⟨hl, ht, hp, hb, hq⟩

end Patterns

end Rules

namespace Surface.Expr

variable (E : Engine)

mutual

/-- The readings of every expression return hygienic terms. -/
theorem rules_hygienic : ∀ e : Expr, (e.rules E).Hygienic
  | .const span c => by
    rw [rules]
    exact Rules.const_hygienic c
  | .todo span => by
    rw [rules]
    exact Rules.todo_hygienic
  | .var span x => by
    rw [rules]
    exact Rules.var_hygienic x
  | .number span n => by
    rw [rules]
    exact Rules.number_hygienic n
  | .quote span a => by
    rw [rules]
    exact Rules.quote_hygienic a
  | .unary span o a => by
    rw [rules]
    exact Rules.unary_hygienic o (rules_hygienic a)
  | .binary span o a b => by
    rw [rules]
    exact Rules.binary_hygienic o (rules_hygienic a) (rules_hygienic b)
  | .ternary span o a b c => by
    rw [rules]
    exact Rules.ternary_hygienic o (rules_hygienic a) (rules_hygienic b) (rules_hygienic c)
  | .quaternary span o a b c d => by
    rw [rules]
    exact Rules.quaternary_hygienic o (rules_hygienic a) (rules_hygienic b) (rules_hygienic c)
      (rules_hygienic d)
  | .indVec span l t m b s => by
    rw [rules]
    exact Rules.indVec_hygienic (rules_hygienic l) (rules_hygienic t) (rules_hygienic m)
      (rules_hygienic b) (rules_hygienic s)
  | .arrow span domain rest => by
    rw [rules]
    exact Rules.former_hygienic fun c S =>
      Rules.nondependent_clean .pi c (rules_hygienic domain) (partsOfList_hygienic rest) S
  | .quant span q binders body => by
    rw [rules]
    exact Rules.former_hygienic fun c S =>
      Rules.telescope_clean q c (rules_hygienic body) (partsOfBinders_hygienic binders) S
  | .lambda span parameters body => by
    rw [rules]
    exact Rules.checked_hygienic fun S ty =>
      Rules.checkLambda_clean (rules_hygienic body) parameters S ty
  | .apply span function arguments => by
    rw [rules]
    refine Rules.inferred_hygienic fun S => ((rules_hygienic function).synthesize S).bind
      fun ⟨f, ty⟩ hf => ?_
    exact Rules.applyTo_clean (partsOfList_hygienic arguments) S hf ty

theorem partsOfList_hygienic : ∀ (es : List Expr), ∀ a ∈ partsOfList E es, a.rules.Hygienic
  | [] => by
    rw [partsOfList]
    exact nofun
  | e :: es => by
    rw [partsOfList]
    intro a ha
    rcases List.mem_cons.1 ha with rfl | ha
    · exact rules_hygienic e
    · exact partsOfList_hygienic es a ha

theorem partsOfBinders_hygienic :
    ∀ (binders : List (Site × Expr)), ∀ b ∈ partsOfBinders E binders, b.2.rules.Hygienic
  | [] => by
    rw [partsOfBinders]
    exact nofun
  | (site, ty) :: binders => by
    rw [partsOfBinders]
    intro b hb
    rcases List.mem_cons.1 hb with rfl | hb
    · exact rules_hygienic ty
    · exact partsOfBinders_hygienic binders b hb

end

end Surface.Expr

/-! ## Contexts -/

namespace Context

/-- What hygiene asks of a context. -/
structure Hygienic (E : Engine) (Γ : Context) : Prop where
  /-- The terms that elaboration returns. -/
  synthesize : ∀ e t ty, Γ.synthesize E e = .ok (t, ty) → t.Hygienic Γ.names
  check : ∀ e ty t, Γ.check E e ty = .ok t → t.Hygienic Γ.names
  isType : ∀ e t, Γ.isType E e = .ok t → t.Hygienic Γ.names
  /-- The terms that read-back returns, for any type and value. -/
  readBack : ∀ ty v t, Γ.readBack E ty v = .ok t → t.Hygienic Γ.names
  readBackType : ∀ ty t, Γ.readBackType E ty = .ok t → t.Hygienic Γ.names
  normalForm : ∀ t ty u, Γ.normalForm E t ty = .ok u → u.Hygienic Γ.names
  /-- No binder is rejected because its name is taken. -/
  notDuplicate : ∀ e span x, Γ.synthesize E e ≠ .error (.rejected ⟨span, .duplicateBinding x⟩) ∧
    (∀ ty, Γ.check E e ty ≠ .error (.rejected ⟨span, .duplicateBinding x⟩)) ∧
    Γ.isType E e ≠ .error (.rejected ⟨span, .duplicateBinding x⟩)

/-- Every context is hygienic: the names that elaboration and read-back give to binders never
clash. -/
theorem hygienic (E : Engine) (Γ : Context) : Γ.Hygienic E := by
  have hrules : ∀ e : Surface.Expr, (e.rules E).Hygienic := Surface.Expr.rules_hygienic E
  exact
    { synthesize := fun e t ty h => ((hrules e).synthesize (.ofContext Γ)).of_eq_ok h
      check := fun e ty t h => ((hrules e).check (.ofContext Γ) ty).of_eq_ok h
      isType := fun e t h => ((hrules e).isType (.ofContext Γ)).of_eq_ok h
      readBack := fun ty v t h => (Γ.readBack_hygienic E ty v).of_eq_ok h
      readBackType := fun ty t h => (Γ.readBackType_hygienic E ty).of_eq_ok h
      normalForm := fun t ty u h => by
        have hnormal : Outcome.Hygienic Γ.names (Γ.normalForm E t ty) :=
          (Outcome.ends _ (Γ.evaluate E t)).bind fun v _ => (Γ.readBackType_hygienic E ty).bind
            fun _ hty => (Γ.readBack_hygienic E ty v).bind fun _ hv => .of_ok ⟨hty, hv⟩
        exact hnormal.of_eq_ok h
      notDuplicate := fun e span x =>
        ⟨fun h => ((hrules e).synthesize (.ofContext Γ)).of_eq_error h x rfl,
          fun ty h => ((hrules e).check (.ofContext Γ) ty).of_eq_error h x rfl,
          fun h => ((hrules e).isType (.ofContext Γ)).of_eq_error h x rfl⟩ }

end Context

end PieChecker
