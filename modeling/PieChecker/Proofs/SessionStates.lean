import Mathlib.Data.List.Induction
import PieChecker.Proofs.Reachable

set_option autoImplicit false

/-!
# States of a session

A session starts without names and goes through forms one after another, accepted or not. Each
name passes through three states: it has no entry, it is claimed, it is claimed and defined.
This module says what one form can do to a context, what follows for every name along a whole
session, which rejections the state of a name causes, and where a program that is not accepted
to its end leaves the session.
-/

namespace PieChecker.Context

/-- What a context lists under a name, the newest entry first. -/
def entries (Γ : Context) (x : String) : List Binding :=
  Γ.bindings.filterMap fun (y, binding) => if y = x then some binding else none

variable (E : Engine)

/-- The context after a form, accepted or not. -/
def after (Γ : Context) (form : Surface.Form) : Context := (Γ.processAll E [form]).context

/-- The context of a session that went through these forms. -/
def session (forms : List Surface.Form) : Context := forms.foldl (after E) .empty

/-- The session claimed the name at the type, which it elaborated and evaluated then. -/
def ClaimedAt (forms : List Surface.Form) (x : String) (ty : Value) : Prop :=
  ∃ before site e later t, forms = before ++ .claim site e :: later ∧ site.name = x ∧
    (session E before).isType E e = .ok t ∧ (session E before).evaluate E t = .ok ty

/-- The session defined the name by an expression, checked against the type, with this value. -/
def DefinedAs (forms : List Surface.Form) (x : String) (ty value : Value) : Prop :=
  ∃ before site e later t, forms = before ++ .define site e :: later ∧ site.name = x ∧
    (session E before).check E e ty = .ok t ∧ (session E before).evaluate E t = .ok value

/-- The states of a name in a session, as the entries that it has. -/
inductive NameState (forms : List Surface.Form) (x : String) : List Binding → Prop where
  | unknown : NameState forms x []
  | claimed {ty : Value} (hclaimed : ClaimedAt E forms x ty) : NameState forms x [.claim ty]
  | defined {ty value : Value} (hclaimed : ClaimedAt E forms x ty)
      (hdefined : DefinedAs E forms x ty value) :
    NameState forms x [.defined ty value, .claim ty]

/-- Forms that are accepted one after another, with what each produced and the context after
them. -/
inductive Accepted : Context → List Surface.Form → List Processed → Context → Prop where
  | nil {Γ : Context} : Accepted Γ [] [] Γ
  | cons {Γ Γ' Γ'' : Context} {form : Surface.Form} {forms : List Surface.Form} {p : Processed}
      {ps : List Processed}
    (h : Γ.process E form = .ok (p, Γ')) (hs : Accepted Γ' forms ps Γ'') :
    Accepted Γ (form :: forms) (p :: ps) Γ''

variable {E} {Γ Γ' : Context} {form : Surface.Form} {forms : List Surface.Form} {p : Processed}
  {x : String}

/-! ## One form -/

/-- What an accepted form does. -/
theorem process_cases (h : Γ.process E form = .ok (p, Γ')) :
    (∃ site e t ty, form = .claim site e ∧ Γ.binding? site.name = none ∧ Γ.isType E e = .ok t ∧
      Γ.evaluate E t = .ok ty ∧ Γ' = Γ.claim site.name ty) ∨
    (∃ site e t ty v, form = .define site e ∧ Γ.binding? site.name = some (.claim ty) ∧
      Γ.check E e ty = .ok t ∧ Γ.evaluate E t = .ok v ∧ Γ' = Γ.define site.name ty v) ∨
    ((∀ site e, form ≠ .claim site e ∧ form ≠ .define site e) ∧ Γ' = Γ) := by
  cases form with
  | claim site e =>
    rw [Context.process] at h
    split at h
    · cases h
    · rename_i hnone
      obtain ⟨t, ht, h⟩ := bind_eq_ok_iff.1 h
      obtain ⟨v, hv, h⟩ := bind_eq_ok_iff.1 h
      cases h
      exact .inl ⟨site, e, t, v, rfl, by simpa using hnone, ht,
        Outcome.unrejected_eq_ok_iff.1 hv, rfl⟩
  | define site e =>
    rw [Context.process] at h
    split at h
    · rename_i ty hclaim
      obtain ⟨t, ht, h⟩ := bind_eq_ok_iff.1 h
      obtain ⟨v, hv, h⟩ := bind_eq_ok_iff.1 h
      cases h
      exact .inr (.inl ⟨site, e, t, ty, v, rfl, hclaim, ht,
        Outcome.unrejected_eq_ok_iff.1 hv, rfl⟩)
    · cases h
    · cases h
  | checkSame ty left right =>
    rw [Context.process] at h
    iterate 7 obtain ⟨_, _, h⟩ := bind_eq_ok_iff.1 h
    cases h
    exact .inr (.inr ⟨fun _ _ => ⟨by rintro ⟨⟩, by rintro ⟨⟩⟩, rfl⟩)
  | expression e =>
    rw [Context.process] at h
    obtain ⟨_, _, h⟩ := bind_eq_ok_iff.1 h
    cases h
    exact .inr (.inr ⟨fun _ _ => ⟨by rintro ⟨⟩, by rintro ⟨⟩⟩, rfl⟩)

theorem bindings_of_process_claim {site : Surface.Site} {e : Surface.Expr}
    (h : Γ.process E (.claim site e) = .ok (p, Γ')) :
    ∃ ty, Γ'.bindings = (site.name, .claim ty) :: Γ.bindings ∧
    Γ'.environment = Γ.environment := by
  obtain ⟨_, _, _, ty, ⟨⟩, _, _, _, rfl⟩ | ⟨_, _, _, _, _, ⟨⟩, _⟩ | ⟨h, _⟩ := process_cases h
  · exact ⟨ty, rfl, rfl⟩
  · exact absurd rfl (h site e).1

theorem bindings_of_process_define {site : Surface.Site} {e : Surface.Expr}
    (h : Γ.process E (.define site e) = .ok (p, Γ')) :
    ∃ ty v, Γ'.bindings = (site.name, .defined ty v) :: Γ.bindings ∧
      Γ'.environment = (site.name, v) :: Γ.environment := by
  obtain ⟨_, _, _, _, ⟨⟩, _⟩ | ⟨_, _, _, ty, v, ⟨⟩, _, _, _, rfl⟩ | ⟨h, _⟩ := process_cases h
  · exact ⟨ty, v, rfl, rfl⟩
  · exact absurd rfl (h site e).2

theorem after_of_ok (h : Γ.process E form = .ok (p, Γ')) : Γ.after E form = Γ' := by
  rw [after, processAll, h]
  rfl

theorem after_of_error {i : Interrupt TypeError} (h : Γ.process E form = .error i) :
    Γ.after E form = Γ := by
  rw [after, processAll, h]

/-- A form is not accepted, or does what an accepted form can do. -/
theorem after_cases (Γ : Context) (form : Surface.Form) :
    Γ.after E form = Γ ∨
    (∃ site e t ty, form = .claim site e ∧ Γ.binding? site.name = none ∧ Γ.isType E e = .ok t ∧
      Γ.evaluate E t = .ok ty ∧ Γ.after E form = Γ.claim site.name ty) ∨
    (∃ site e t ty v, form = .define site e ∧ Γ.binding? site.name = some (.claim ty) ∧
      Γ.check E e ty = .ok t ∧ Γ.evaluate E t = .ok v ∧
      Γ.after E form = Γ.define site.name ty v) := by
  cases h : Γ.process E form with
  | error i => exact .inl (after_of_error h)
  | ok r =>
    obtain ⟨p, Γ'⟩ := r
    rw [after_of_ok h]
    obtain hclaim | hdefine | ⟨-, rfl⟩ := process_cases h
    · exact .inr (.inl hclaim)
    · exact .inr (.inr hdefine)
    · exact .inl rfl

/-! ## Entries -/

theorem entries_claim (Γ : Context) (x y : String) (ty : Value) :
    (Γ.claim x ty).entries y = if x = y then .claim ty :: Γ.entries y else Γ.entries y := by
  rw [entries, claim, List.filterMap_cons]
  split <;> simp_all [entries]

theorem entries_define (Γ : Context) (x y : String) (ty v : Value) :
    (Γ.define x ty v).entries y = if x = y then .defined ty v ::
      Γ.entries y else Γ.entries y := by
  rw [entries, define, List.filterMap_cons]
  split <;> simp_all [entries]

theorem binding?_eq_head? (Γ : Context) (x : String) : Γ.binding? x = (Γ.entries x).head? := by
  obtain ⟨bindings, environment⟩ := Γ
  induction bindings with
  | nil => rfl
  | cons b bindings ih =>
    obtain ⟨y, b⟩ := b
    simp only [binding?, entries] at ih ⊢
    rw [List.lookup_cons, List.filterMap_cons, ih]
    by_cases hxy : y = x
    · simp [hxy]
    · rw [beq_false_of_ne (Ne.symm hxy), if_neg hxy]

theorem mem_entries_iff {b : Binding} : b ∈ Γ.entries x ↔ (x, b) ∈ Γ.bindings := by
  simp only [entries, List.mem_filterMap]
  constructor
  · rintro ⟨⟨y, b'⟩, hmem, heq⟩
    split at heq
    · rename_i hy
      cases heq
      exact hy ▸ hmem
    · cases heq
  · intro hmem
    exact ⟨(x, b), hmem, by simp⟩

/-! ## Sessions -/

theorem session_append (forms more : List Surface.Form) :
    session E (forms ++ more) = more.foldl (after E) (session E forms) :=
  List.foldl_append

theorem session_append_singleton (forms : List Surface.Form) (form : Surface.Form) :
    session E (forms ++ [form]) = (session E forms).after E form :=
  session_append forms [form]

theorem ClaimedAt.append {ty : Value} (h : ClaimedAt E forms x ty) (more : List Surface.Form) :
    ClaimedAt E (forms ++ more) x ty := by
  obtain ⟨before, site, e, later, t, rfl, h⟩ := h
  exact ⟨before, site, e, later ++ more, t, by simp, h⟩

theorem DefinedAs.append {ty value : Value} (h : DefinedAs E forms x ty value)
    (more : List Surface.Form) :
    DefinedAs E (forms ++ more) x ty value := by
  obtain ⟨before, site, e, later, t, rfl, h⟩ := h
  exact ⟨before, site, e, later ++ more, t, by simp, h⟩

/-- The state of a name does not depend on what comes after its last entry. -/
theorem NameState.append {bs : List Binding} (h : NameState E forms x bs)
    (more : List Surface.Form) :
    NameState E (forms ++ more) x bs := by
  cases h with
  | unknown => exact .unknown
  | claimed hclaimed => exact .claimed (hclaimed.append more)
  | defined hclaimed hdefined => exact .defined (hclaimed.append more) (hdefined.append more)

/-- A claim is accepted for an unknown name only, and a definition for a claimed one, so each
name goes through its states in order. -/
theorem nameState_session (forms : List Surface.Form) (x : String) :
    NameState E forms x ((session E forms).entries x) := by
  induction forms using List.reverseRecOn with
  | nil => exact .unknown
  | append_singleton forms form ih =>
    rw [session_append_singleton]
    obtain heq | ⟨site, e, t, ty, rfl, hnone, ht, hty, heq⟩ | ⟨site, e, t, ty, v, rfl, hclaim,
        ht, hv, heq⟩ :=
      after_cases (session E forms) form
    · rw [heq]
      exact ih.append _
    · rw [heq, entries_claim]
      split
      case isFalse => exact ih.append _
      case isTrue hx =>
        rw [binding?_eq_head?, hx, List.head?_eq_none_iff] at hnone
        rw [hnone]
        exact .claimed ⟨forms, site, e, [], t, rfl, hx, ht, hty⟩
    · rw [heq, entries_define]
      split
      case isFalse => exact ih.append _
      case isTrue hx =>
        have hdefined : DefinedAs E (forms ++ [.define site e]) x ty v :=
          ⟨forms, site, e, [], t, rfl, hx, ht, hv⟩
        rw [binding?_eq_head?, hx] at hclaim
        generalize (session E forms).entries x = bs at ih hclaim
        cases ih with
        | unknown => cases hclaim
        | claimed hclaimed =>
          cases hclaim
          exact .defined (hclaimed.append _) hdefined
        | defined => cases hclaim

/-- No state of a name has a free entry. -/
theorem not_free_session (forms : List Surface.Form) (x : String) (ty : Value) :
    (x, .free ty) ∉ (session E forms).bindings := by
  rw [← mem_entries_iff]
  intro hmem
  have hstate := nameState_session (E := E) forms x
  generalize (session E forms).entries x = bs at hmem hstate
  cases hstate <;> simp at hmem

theorem reachable_session (forms : List Surface.Form) :
    (session E forms).Reachable E.strategy := by
  induction forms using List.reverseRecOn with
  | nil => exact .empty
  | append_singleton forms form ih =>
    rw [session_append_singleton]
    exact ih.processAll [form]

/-! ## Rejections -/

end Context

/-- The causes of rejection that are about the state of a name and not about an expression. -/
def Cause.IsAboutState (c : Cause) : Prop := (∃ x, c = .alreadyDefined x) ∨
  ∃ x, c = .notClaimed x

/-- A computation in two steps fails because one of them does. -/
theorem of_bind_eq_error {ε α β : Type} {r : Except ε α} {f : α → Except ε β} {i : ε}
    (h : r >>= f = .error i) :
    r = .error i ∨ ∃ a, r = .ok a ∧ f a = .error i := by
  cases r with
  | error e =>
    cases h
    exact .inl rfl
  | ok a => exact .inr ⟨a, rfl, h⟩

theorem Outcome.unrejected_ne_rejected {ε α : Type} (r : Outcome α) (e : ε) :
    (r.unrejected : Except (Interrupt ε) α) ≠ .error (.rejected e) := by
  cases r <;> nofun

/-- No cause about the state of a name corresponds to any cause, so a run that is compared with
itself has none. -/
theorem Worlds.Checked.not_isAboutState {strategy : Strategy} {𝒲 : Worlds (.upToNames strategy)}
    {α : Type} {R : α → α → Prop} {r : PieChecker.Checked α} (h : 𝒲.Checked R r r)
    {e : TypeError} (hr : r = .error (.rejected e)) : ¬ e.cause.IsAboutState := by
  rintro hstate
  subst hr
  rcases h with h | h | h
  · cases h
  · cases h
  · cases h with
    | rejected h =>
      have hcause := h.cause
      rcases hstate with ⟨x, hx⟩ | ⟨x, hx⟩ <;> rw [hx] at hcause <;> cases hcause

namespace Context

variable {E : Engine} {Γ : Context} {c : Cause} {s : Span} {site : Surface.Site}
  {e : Surface.Expr}

/-- Elaborating an expression and evaluating the term that results is not rejected for the state
of a name. -/
theorem not_isAboutState_of_elaborate {α : Type} {R : Core → Core → Prop} {strategy : Strategy}
    {𝒲 : Worlds (.upToNames strategy)} {r : Checked Core} (hr : 𝒲.Checked R r r)
    {k : Core → Value → α} {err : TypeError}
    (h : (do let t ← r; let v ← Γ.evaluate E t; return k t v : Checked α) =
      .error (.rejected err)) :
    ¬ err.cause.IsAboutState := by
  obtain h | ⟨t, -, h⟩ := of_bind_eq_error h
  · exact hr.not_isAboutState h
  obtain h | ⟨v, -, h⟩ := of_bind_eq_error h
  · exact absurd h (Outcome.unrejected_ne_rejected _ _)
  · cases h

/-- A claim is rejected for the state of its name exactly if the name has an entry. -/
theorem process_claim_rejected_iff (hΓ : Γ.Reachable E.strategy) (hc : c.IsAboutState) :
    Γ.process E (.claim site e) = .error (.rejected ⟨s, c⟩) ↔
      Γ.entries site.name ≠ [] ∧ s = site.span ∧ c = .alreadyDefined site.name := by
  have hread := (hΓ.scoped.readings_self E.fuel e).isType
  have hsome : (Γ.binding? site.name).isSome = true ↔ Γ.entries site.name ≠ [] := by
    rw [binding?_eq_head?, List.isSome_head?]
  rw [Context.process, ← hsome]
  split
  case isTrue hx =>
    constructor
    · intro h
      cases h
      exact ⟨hx, rfl, rfl⟩
    · rintro ⟨-, rfl, rfl⟩
      rfl
  case isFalse hx =>
    constructor
    · intro h
      exact absurd hc (not_isAboutState_of_elaborate hread h)
    · exact fun h => absurd h.1 hx

/-- A definition is rejected for the state of its name exactly if the name is unknown or
defined. -/
theorem process_define_rejected_iff (hΓ : Γ.Reachable E.strategy) {forms : List Surface.Form}
    (hstate : NameState E forms site.name (Γ.entries site.name)) (hc : c.IsAboutState) :
    Γ.process E (.define site e) = .error (.rejected ⟨s, c⟩) ↔ s = site.span ∧
      ((Γ.entries site.name = [] ∧ c = .notClaimed site.name) ∨
        ((∃ ty v, .defined ty v ∈ Γ.entries site.name) ∧ c = .alreadyDefined site.name)) := by
  have hbinding := binding?_eq_head? Γ site.name
  have hmem : ∀ b, b ∈ Γ.entries site.name → (site.name, b) ∈ Γ.bindings :=
    fun b => mem_entries_iff.1
  rw [Context.process]
  generalize Γ.entries site.name = bs at hstate hbinding hmem
  cases hstate with
  | unknown =>
    have hbinding : Γ.binding? site.name = none := hbinding
    rw [hbinding]
    constructor
    · intro h
      cases h
      exact ⟨rfl, .inl ⟨rfl, rfl⟩⟩
    · rintro ⟨rfl, ⟨-, rfl⟩ | ⟨⟨ty, v, hmem⟩, -⟩⟩
      · rfl
      · cases hmem
  | @claimed ty =>
    have hbinding : Γ.binding? site.name = some (.claim ty) := hbinding
    -- the type of the claim was elaborated, so checking against it is compared with itself
    have hty : Γ.Elaborated E.strategy ty := .typeBound (hmem (.claim ty) List.mem_cons_self)
    have hread := (hΓ.scoped.readings_self E.fuel e).check (hΓ.scoped.elaborated hty)
    rw [hbinding]
    constructor
    · intro h
      exact absurd hc (not_isAboutState_of_elaborate hread h)
    · rintro ⟨-, ⟨h, -⟩ | ⟨⟨ty, v, h⟩, -⟩⟩
      · cases h
      · simp at h
  | @defined ty v =>
    have hbinding : Γ.binding? site.name = some (.defined ty v) := hbinding
    rw [hbinding]
    constructor
    · intro h
      cases h
      exact ⟨rfl, .inr ⟨⟨ty, v, List.mem_cons_self⟩, rfl⟩⟩
    · rintro ⟨rfl, ⟨h, -⟩ | ⟨-, rfl⟩⟩
      · cases h
      · rfl

/-! ## Programs -/

theorem Accepted.foldl_after {Γ Γ' : Context} {forms : List Surface.Form} {ps : List Processed}
    (h : Accepted E Γ forms ps Γ') : forms.foldl (after E) Γ = Γ' := by
  induction h with
  | nil => rfl
  | cons h _ ih => rw [List.foldl_cons, after_of_ok h, ih]

/-- A program is processed up to the first form that is not accepted, and what came before stays
in effect. -/
theorem processAll_cases (Γ : Context) (forms : List Surface.Form) :
    ∃ accepted rest, forms = accepted ++ rest ∧
    Accepted E Γ accepted (Γ.processAll E forms).processed (Γ.processAll E forms).context ∧
    ((rest = [] ∧ (Γ.processAll E forms).interrupt = none) ∨
      ∃ form later i, rest = form :: later ∧
        (Γ.processAll E forms).context.process E form = .error i ∧
        (Γ.processAll E forms).interrupt = some i) := by
  induction forms generalizing Γ with
  | nil => exact ⟨[], [], rfl, .nil, .inl ⟨rfl, rfl⟩⟩
  | cons form forms ih =>
    rw [Context.processAll]
    split
    case h_1 p Γ' h =>
      obtain ⟨accepted, rest, hforms, haccepted, hrest⟩ := ih Γ'
      exact ⟨form :: accepted, rest, by rw [hforms]; rfl, .cons h haccepted, hrest⟩
    case h_2 i h => exact ⟨[], form :: forms, rfl, .nil, .inr ⟨form, forms, i, rfl, h, rfl⟩⟩

/-- The accepted forms of a program continue the session. -/
theorem runProgram_session {forms : List Surface.Form} {source : String}
    {transcript : Transcript} (h : (session E forms).runProgram E source = .ok transcript) :
    ∃ accepted rest, Surface.parse source = .ok (accepted ++ rest) ∧
      Accepted E (session E forms) accepted transcript.processed transcript.context ∧
      transcript.context = session E (forms ++ accepted) ∧
      ((rest = [] ∧ transcript.interrupt = none) ∨
        ∃ form later i, rest = form :: later ∧ transcript.context.process E form = .error i ∧
          transcript.interrupt = some i) := by
  obtain ⟨program, hparse, h⟩ := bind_eq_ok_iff.1 h
  cases h
  obtain ⟨accepted, rest, rfl, haccepted, hrest⟩ :=
    processAll_cases (E := E) (session E forms) program
  refine ⟨accepted, rest, hparse, haccepted, ?_, hrest⟩
  rw [session_append, haccepted.foldl_after]

/-! ## The laws of sessions -/

/-- What holds after a session went through the forms. -/
structure SessionLaws (E : Engine) (forms : List Surface.Form) : Prop where
  noFree : ∀ x ty, (x, .free ty) ∉ (session E forms).bindings
  nameState : ∀ x, NameState E forms x ((session E forms).entries x)
  /-- The environment holds the values of the definitions, in the same order. -/
  environment_eq : (session E forms).environment = valuesOf (session E forms).bindings
  /-- An accepted claim or definition adds one entry, and only a definition adds a value. -/
  claim : ∀ site e p Γ', (session E forms).process E (.claim site e) = .ok (p, Γ') →
    ∃ ty, Γ'.bindings = (site.name, .claim ty) :: (session E forms).bindings ∧
      Γ'.environment = (session E forms).environment
  define : ∀ site e p Γ', (session E forms).process E (.define site e) = .ok (p, Γ') →
    ∃ ty v, Γ'.bindings = (site.name, .defined ty v) :: (session E forms).bindings ∧
      Γ'.environment = (site.name, v) :: (session E forms).environment
  /-- No other form changes the context, nor does one that is not accepted. -/
  checkSame : ∀ ty left right, (session E forms).after E (.checkSame ty left right) =
    session E forms
  expression : ∀ e, (session E forms).after E (.expression e) = session E forms
  notAccepted : ∀ form i, (session E forms).process E form = .error i →
    (session E forms).after E form = session E forms
  /-- The state of a name decides over the rejections that are about it. -/
  claim_alreadyDefined : ∀ site e s x,
    (session E forms).process E (.claim site e) = .error (.rejected ⟨s, .alreadyDefined x⟩) ↔
      (session E forms).entries site.name ≠ [] ∧ s = site.span ∧ x = site.name
  define_notClaimed : ∀ site e s x,
    (session E forms).process E (.define site e) = .error (.rejected ⟨s, .notClaimed x⟩) ↔
      (session E forms).entries site.name = [] ∧ s = site.span ∧ x = site.name
  define_alreadyDefined : ∀ site e s x,
    (session E forms).process E (.define site e) = .error (.rejected ⟨s, .alreadyDefined x⟩) ↔
      (∃ ty v, .defined ty v ∈ (session E forms).entries site.name) ∧ s = site.span ∧
      x = site.name
  /-- A program is processed up to its first form that is not accepted. The forms before it stay
  in effect, and those after it are not processed. -/
  run : ∀ source transcript, (session E forms).runProgram E source = .ok transcript →
    ∃ accepted rest, Surface.parse source = .ok (accepted ++ rest) ∧
      Accepted E (session E forms) accepted transcript.processed transcript.context ∧
      transcript.context = session E (forms ++ accepted) ∧
      ((rest = [] ∧ transcript.interrupt = none) ∨
        ∃ form later i, rest = form :: later ∧ transcript.context.process E form = .error i ∧
          transcript.interrupt = some i)

/-- Every session obeys the laws, whatever the forms were. -/
theorem sessionLaws (E : Engine) (forms : List Surface.Form) : SessionLaws E forms where
  noFree := not_free_session forms
  nameState := nameState_session forms
  environment_eq := (reachable_session forms).scoped.environment_eq
  claim _ _ _ _ h := bindings_of_process_claim h
  define _ _ _ _ h := bindings_of_process_define h
  checkSame ty left right := by
    obtain h | ⟨_, _, _, _, ⟨⟩, _⟩ | ⟨_, _, _, _, _, ⟨⟩, _⟩ :=
      after_cases (session E forms) (.checkSame ty left right)
    exact h
  expression e := by
    obtain h | ⟨_, _, _, _, ⟨⟩, _⟩ | ⟨_, _, _, _, _, ⟨⟩, _⟩ :=
      after_cases (session E forms) (.expression e)
    exact h
  notAccepted _ _ := after_of_error
  claim_alreadyDefined site e s x := by
    rw [process_claim_rejected_iff (reachable_session forms) (.inl ⟨x, rfl⟩),
      Cause.alreadyDefined.injEq]
  define_notClaimed site e s x := by
    rw [process_define_rejected_iff (reachable_session forms) (nameState_session forms _)
      (.inr ⟨x, rfl⟩)]
    constructor
    · rintro ⟨hs, ⟨hnone, ⟨⟩⟩ | ⟨-, ⟨⟩⟩⟩
      exact ⟨hnone, hs, rfl⟩
    · rintro ⟨hnone, hs, rfl⟩
      exact ⟨hs, .inl ⟨hnone, rfl⟩⟩
  define_alreadyDefined site e s x := by
    rw [process_define_rejected_iff (reachable_session forms) (nameState_session forms _)
      (.inl ⟨x, rfl⟩)]
    constructor
    · rintro ⟨hs, ⟨-, ⟨⟩⟩ | ⟨hdefined, ⟨⟩⟩⟩
      exact ⟨hdefined, hs, rfl⟩
    · rintro ⟨hdefined, hs, rfl⟩
      exact ⟨hs, .inr ⟨hdefined, rfl⟩⟩
  run _ _ := runProgram_session

end PieChecker.Context
