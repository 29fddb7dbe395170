import PieChecker.Proofs.Bidirectional
import PieChecker.Proofs.SessionStates

set_option autoImplicit false

/-!
# When two unfinished parts are the same

An unfinished part is known by its type and by where it was written, and nothing else. A place
does not say which text it is in, and a session may go through several: two unfinished parts of
a session are the same exactly if they were written at the same place of their texts.
-/

namespace PieChecker

theorem bind_lift_of_ok {ε α β : Type} {r : Outcome α} {a : α} (h : r = .ok a)
    (f : α → Except (Interrupt ε) β) :
    (liftM r : Except (Interrupt ε) α) >>= f = f a := by
  rw [h]
  rfl

/-- The value of an unfinished number. -/
def Value.unfinishedNat (s : Span) : Value := .neutral .nat (.todo s .nat)

namespace Context

/-- The name is defined as the number that is unfinished at the span. -/
structure Unfinished (Γ : Context) (x : String) (s : Span) : Prop where
  binding : Γ.binding? x = some (.defined .nat (.unfinishedNat s))
  type : Γ.lookupType x = .ok .nat
  value : Γ.environment.lookup x = some (.unfinishedNat s)

/-- The session claimed the name at `Nat` and defined it by the unfinished part at the span. -/
def LeftUnfinished (E : Engine) (forms : List Surface.Form) (x : String) (s : Span) : Prop :=
  ∃ before site later, forms = before ++ .define site (.todo s) :: later ∧ site.name = x ∧
    (session E before).binding? x = some (.claim .nat)

variable {E : Engine} {Γ : Context} {x : String} {s : Span}

/-- A new entry for another name is not seen. -/
theorem Unfinished.claim (h : Γ.Unfinished x s) {y : String} (hy : y ≠ x) (ty : Value) :
    (Γ.claim y ty).Unfinished x s where
  binding := by
    rw [binding?, Context.claim, List.lookup_cons, beq_false_of_ne (Ne.symm hy)]
    exact h.binding
  type := by
    have htype := h.type
    simpa [lookupType, Context.claim, hy] using htype
  value := h.value

theorem Unfinished.define (h : Γ.Unfinished x s) {y : String} (hy : y ≠ x) (ty v : Value) :
    (Γ.define y ty v).Unfinished x s where
  binding := by
    rw [binding?, Context.define, List.lookup_cons, beq_false_of_ne (Ne.symm hy)]
    exact h.binding
  type := by
    have htype := h.type
    simpa [lookupType, Context.define, hy] using htype
  value := by
    rw [Context.define, List.lookup_cons, beq_false_of_ne (Ne.symm hy)]
    exact h.value

/-- No form changes what a defined name stands for. -/
theorem Unfinished.after (h : Γ.Unfinished x s) (form : Surface.Form) :
    (Γ.after E form).Unfinished x s := by
  obtain heq | ⟨site, _, _, ty, _, hnone, _, _, heq⟩ | ⟨site, _, _, ty, v, _, hclaim,
      _, _, heq⟩ :=
    after_cases (E := E) Γ form
  · rwa [heq]
  · have hne : site.name ≠ x := by
      intro hx
      rw [hx, h.binding] at hnone
      cases hnone
    rw [heq]
    exact h.claim hne ty
  · have hne : site.name ≠ x := by
      intro hx
      rw [hx, h.binding] at hclaim
      cases hclaim
    rw [heq]
    exact h.define hne ty v

theorem Unfinished.foldl_after (h : Γ.Unfinished x s) (forms : List Surface.Form) :
    (forms.foldl (Context.after E) Γ).Unfinished x s := by
  induction forms generalizing Γ with
  | nil => exact h
  | cons form forms ih => exact ih (h.after form)

theorem unfinished_define (Γ : Context) (x : String) (s : Span) :
    (Γ.define x .nat (.unfinishedNat s)).Unfinished x s where
  binding := by simp [binding?, Context.define]
  type := by simp [lookupType, Context.define, Binding.isClaim, Binding.ty]
  value := by simp [Context.define]

/-! ## With fuel for a number and for its type -/

section Fuelled

variable {strategy : Strategy} {n : Nat}

/-- An unfinished part is accepted as the definition of a number. -/
theorem process_define_todo {site : Surface.Site}
    (h : Γ.binding? site.name = some (.claim .nat)) :
    Γ.process ⟨strategy, n + 3⟩ (.define site (.todo s)) =
      .ok (⟨.defined site.name, [⟨s, .nat⟩]⟩, Γ.define site.name .nat (.unfinishedNat s)) := by
  rw [process, h]
  rfl

/-- A name that was left unfinished stays so. -/
theorem LeftUnfinished.unfinished {forms : List Surface.Form}
    (h : LeftUnfinished ⟨strategy, n + 3⟩ forms x s) :
    (session ⟨strategy, n + 3⟩ forms).Unfinished x s := by
  obtain ⟨before, site, later, rfl, rfl, hclaim⟩ := h
  rw [session_append, List.foldl_cons, after_of_ok (process_define_todo hclaim)]
  exact (unfinished_define _ _ s).foldl_after later

theorem Unfinished.check_var (h : Γ.Unfinished x s) (span : Span) :
    Γ.check ⟨strategy, n + 3⟩ (.var span x) .nat = .ok (.var x) := by
  have hreference : (Scope.ofContext Γ).reference x = .ok (x, .nat) := by
    show (do return (x, ← Γ.lookupType x) : Except Cause (String × Value)) = _
    rw [h.type]
    rfl
  have hfound : ((Surface.Expr.var span x).rules ⟨strategy, n + 3⟩).synthesize (.ofContext Γ) =
      .ok (.var x, .nat) := by
    simp only [Surface.Expr.rules, Rules.var, Rules.inferred, hreference]
    rfl
  exact Scope.check_of_sameType hfound rfl

theorem Unfinished.evaluate_var (h : Γ.Unfinished x s) :
    Γ.evaluate ⟨strategy, n + 3⟩ (.var x) = .ok (.unfinishedNat s) := by
  show Core.evaluate strategy (n + 3) Γ.environment (.var x) = _
  simp only [Core.evaluate, h.value]
  rfl

theorem convert_unfinishedNat (s t : Span) :
    Γ.convert ⟨strategy, n + 3⟩ .nat (.unfinishedNat s) (.unfinishedNat t) =
      if s = t then .ok () else .error
        (.rejected (.notTheSame .nat (.todo s .nat) (.todo t .nat))) := by
  have halpha : (Core.todo s .nat).alphaEquivalent (.todo t .nat) = decide (s = t) := by
    simp [Core.alphaEquivalent, Core.alphaEquivalentUnder]
  show (if (Core.todo s .nat).alphaEquivalent (.todo t .nat) = true then _ else _) = _
  rw [halpha]
  by_cases hst : s = t <;> simp [hst] <;> rfl

end Fuelled

/-- Whether two expressions are the same is asked about their values, once they are elaborated
and evaluated. -/
theorem process_checkSame {ty left right : Surface.Expr} {tyTerm leftTerm rightTerm : Core}
    {value leftValue rightValue : Value} (hty : Γ.isType E ty = .ok tyTerm)
    (hvalue : Γ.evaluate E tyTerm = .ok value) (hleft : Γ.check E left value = .ok leftTerm)
    (hright : Γ.check E right value = .ok rightTerm)
    (hleftValue : Γ.evaluate E leftTerm = .ok leftValue)
    (hrightValue : Γ.evaluate E rightTerm = .ok rightValue) :
    Γ.process E (.checkSame ty left right) =
      (locate right.span (Γ.convert E value leftValue rightValue)).map fun _ =>
        (⟨.same, holesOf [tyTerm, leftTerm, rightTerm]⟩, Γ) := by
  rw [process, bind_of_ok hty, bind_lift_of_ok hvalue, bind_of_ok hleft, bind_of_ok hright,
    bind_lift_of_ok hleftValue, bind_lift_of_ok hrightValue]
  cases Γ.convert E value leftValue rightValue <;> rfl

/-- Two numbers that a session left unfinished are the same exactly if they were written at the
same place of their texts, whichever texts these are. -/
theorem unfinished_same_iff (hfuel : 3 ≤ E.fuel) {forms : List Surface.Form} {a b : String}
    {s t : Span} (ha : LeftUnfinished E forms a s) (hb : LeftUnfinished E forms b t)
    (tySpan aSpan bSpan : Span) :
    (session E forms).process E (.checkSame (.const tySpan .nat) (.var aSpan a)
      (.var bSpan b)) = if s = t then .ok (⟨.same, []⟩, session E forms)
      else .error (.rejected ⟨bSpan, .notTheSame .nat (.todo s .nat) (.todo t .nat)⟩) := by
  obtain ⟨strategy, fuel⟩ := E
  obtain ⟨n, rfl⟩ : ∃ n, fuel = n + 3 := ⟨fuel - 3, by simp only at hfuel; omega⟩
  have ha := ha.unfinished
  have hb := hb.unfinished
  rw [process_checkSame rfl rfl (ha.check_var aSpan) (hb.check_var bSpan) ha.evaluate_var
    hb.evaluate_var, convert_unfinishedNat]
  split <;> rfl

/-- What `(claim x Nat) (define x TODO)` is read as, where it stands at the given position of a
text. -/
def unfinishedForms (position : Nat) (x : String) : List Surface.Form :=
  [.claim ⟨⟨position + 7, position + 8⟩, x⟩ (.const ⟨position + 9, position + 12⟩ .nat),
    .define ⟨⟨position + 22, position + 23⟩, x⟩ (.todo ⟨position + 24, position + 28⟩)]

/-- The lexemes of `(claim x Nat) (define x TODO)`, for a name of one byte. -/
def unfinishedLexemes (x : String) : List Lexeme :=
  [⟨.opening, 0, "("⟩, ⟨.keyword (.opener .claim), 1, "claim"⟩, ⟨.blank, 6, " "⟩, ⟨.name, 7, x⟩,
    ⟨.blank, 8, " "⟩, ⟨.keyword (.const .nat), 9, "Nat"⟩, ⟨.closing, 12, ")"⟩,
    ⟨.blank, 13, " "⟩, ⟨.opening, 14, "("⟩, ⟨.keyword (.opener .define), 15, "define"⟩,
    ⟨.blank, 21, " "⟩, ⟨.name, 22, x⟩, ⟨.blank, 23, " "⟩, ⟨.keyword .todo, 24, "TODO"⟩,
    ⟨.closing, 28, ")"⟩]

/-- One text leaves `a` unfinished, and another one first `b` and then `c`. The place of `b` is
that of `a` and the place of `c` is not. -/
theorem unfinished_same_iff_abc :
    let E : Engine := ⟨.onDemand, 9⟩
    let forms := unfinishedForms 0 "a" ++ (unfinishedForms 0 "b" ++ unfinishedForms 30 "c")
    let Γ := session E forms
    Γ.process E (.checkSame (.const ⟨12, 15⟩ .nat) (.var ⟨16, 17⟩ "a") (.var ⟨18, 19⟩ "b")) =
      .ok (⟨.same, []⟩, Γ) ∧
    Γ.process E (.checkSame (.const ⟨12, 15⟩ .nat) (.var ⟨16, 17⟩ "a") (.var ⟨18, 19⟩ "c")) =
      .error (.rejected
        ⟨⟨18, 19⟩, .notTheSame .nat (.todo ⟨24, 28⟩ .nat) (.todo ⟨54, 58⟩ .nat)⟩) := by
  intro E forms Γ
  have ha : LeftUnfinished E forms "a" ⟨24, 28⟩ := ⟨forms.take 1, _, _, rfl, rfl, rfl⟩
  have hb : LeftUnfinished E forms "b" ⟨24, 28⟩ := ⟨forms.take 3, _, _, rfl, rfl, rfl⟩
  have hc : LeftUnfinished E forms "c" ⟨54, 58⟩ := ⟨forms.take 5, _, _, rfl, rfl, rfl⟩
  exact ⟨unfinished_same_iff (by decide) ha hb _ _ _,
    unfinished_same_iff (by decide) ha hc _ _ _⟩

/-- Two unfinished parts of different texts are taken for the same: after a text that leaves `a`
unfinished and another one that leaves `b` unfinished, `a` and `b` are the same number. -/
theorem unfinished_parts_of_two_texts_coincide : ∃ first second third,
    Context.empty.runProgram .standard "(claim a Nat) (define a TODO)" = .ok first ∧
    first.interrupt = none ∧
    first.context.runProgram .standard "(claim b Nat) (define b TODO)" = .ok second ∧
    second.interrupt = none ∧
    second.context.runProgram .standard "(check-same Nat a b)" = .ok third ∧
    third.interrupt = none := by
  have hlexa : lex "(claim a Nat) (define a TODO)" = .ok (unfinishedLexemes "a") := by
    decide +kernel
  have hlexb : lex "(claim b Nat) (define b TODO)" = .ok (unfinishedLexemes "b") := by
    decide +kernel
  have hlex : lex "(check-same Nat a b)" = .ok [⟨.opening, 0, "("⟩,
      ⟨.keyword (.opener .checkSame), 1, "check-same"⟩, ⟨.blank, 11, " "⟩,
      ⟨.keyword (.const .nat), 12, "Nat"⟩, ⟨.blank, 15, " "⟩, ⟨.name, 16, "a"⟩,
      ⟨.blank, 17, " "⟩, ⟨.name, 18, "b"⟩, ⟨.closing, 19, ")"⟩] := by
    decide +kernel
  have ha : Surface.parse "(claim a Nat) (define a TODO)" = .ok (unfinishedForms 0 "a") :=
    Surface.parse_of_lex hlexa rfl
  have hb : Surface.parse "(claim b Nat) (define b TODO)" = .ok (unfinishedForms 0 "b") :=
    Surface.parse_of_lex hlexb rfl
  have hsame : Surface.parse "(check-same Nat a b)" =
      .ok [.checkSame (.const ⟨12, 15⟩ .nat) (.var ⟨16, 17⟩ "a") (.var ⟨18, 19⟩ "b")] :=
    Surface.parse_of_lex hlex rfl
  refine ⟨_, _, _, bind_of_ok ha _, rfl, bind_of_ok hb _, rfl, bind_of_ok hsame _, rfl⟩

end Context

end PieChecker
