import PieChecker.Proofs.Parsing.Programs

set_option autoImplicit false

/-!
# What a reader refuses

A reader stays within the lexemes that it is given: whether it hands lexemes back or refuses
them, they are an end of the given ones. So a parse error is at a lexeme of the text, or at the
end of the text.
-/

namespace PieChecker.Surface

namespace Reader

variable {α β : Type}

/-- The lexemes that are left after reading, handed back or refused. -/
def left : Except Refusal (α × List Lexeme) → List Lexeme
  | .ok (_, rest) => rest
  | .error refusal => refusal.rest

/-- Whatever the reader leaves is an end of what it was given. -/
def StaysWithin (r : Reader α) : Prop := ∀ ts, left (r ts) <:+ ts

namespace StaysWithin

theorem pure (a : α) : StaysWithin (Pure.pure a : Reader α) := fun ts => List.suffix_refl ts

theorem refuse (expected : List Expectation) :
    StaysWithin (Reader.refuse expected : Reader α) :=
  fun ts => List.suffix_refl ts

theorem bind {p : Reader α} {f : α → Reader β} (hp : StaysWithin p)
    (hf : ∀ a, StaysWithin (f a)) :
    StaysWithin (p >>= f) := by
  intro ts
  have hts := hp ts
  rw [bind_run]
  cases hread : p ts with
  | error refusal => rwa [hread] at hts
  | ok r =>
    rw [hread] at hts
    exact (hf r.1 r.2).trans hts

theorem get : StaysWithin (MonadState.get : Reader (List Lexeme)) :=
  fun ts => List.suffix_refl ts

theorem skipBlanks : StaysWithin Reader.skipBlanks := fun _ => List.dropWhile_suffix _

theorem tail : StaysWithin (modify List.tail : Reader Unit) := fun ts => List.tail_suffix ts

theorem peek : StaysWithin Reader.peek := get.bind fun _ => pure _

theorem take (accepted others : List Expectation) :
    StaysWithin (Reader.take accepted others) := by
  intro ts
  unfold Reader.take
  cases ts with
  | nil => exact List.suffix_refl []
  | cons l ts =>
    dsimp only
    split
    · exact List.suffix_cons l ts
    · exact List.suffix_refl _

theorem takeNext (accepted : Expectation) (others : List Expectation) :
    StaysWithin (Reader.takeNext accepted others) :=
  skipBlanks.bind fun _ => take _ _

theorem close (others : List Expectation) : StaysWithin (Reader.close others) :=
  (takeNext _ _).bind fun _ => pure _

theorem many {item : Reader α} (h : StaysWithin item) (starts : Token → Bool) (bound : Nat) :
    StaysWithin (Reader.many starts item bound) := by
  induction bound with
  | zero => exact pure []
  | succ bound ih =>
    refine skipBlanks.bind fun _ => peek.bind fun token => ?_
    cases token with
    | none => exact pure []
    | some token =>
      dsimp only
      split
      · exact h.bind fun _ => ih.bind fun _ => pure _
      · exact pure []

theorem manyAvailable {item : Reader α} (h : StaysWithin item) (starts : Token → Bool) :
    StaysWithin (Reader.manyAvailable starts item) :=
  get.bind fun ts => h.many starts ts.length

theorem site : StaysWithin Reader.site := (takeNext _ _).bind fun _ => pure _

theorem quoted (others : List Expectation) : StaysWithin (Reader.quoted others) := take _ _

theorem number (l : Lexeme) : StaysWithin (Reader.number l) := by
  unfold Reader.number
  split
  · exact pure _
  · exact refuse _

theorem binder {operand : Reader Expr} (h : StaysWithin operand) :
    StaysWithin (Reader.binder operand) :=
  (takeNext _ _).bind fun _ => site.bind fun _ => h.bind fun _ => (close _).bind fun _ => pure _

theorem group {item : Reader α} (h : StaysWithin item) (first : Expectation) :
    StaysWithin (Reader.group first item) :=
  (takeNext _ _).bind fun _ => h.bind fun _ => (h.manyAvailable _).bind fun _ =>
    (close _).bind fun _ => pure _

theorem operands {operand : Reader Expr} (h : StaysWithin operand) :
    StaysWithin (Reader.operands operand) :=
  h.bind fun _ => (h.manyAvailable _).bind fun _ => (close _).bind fun _ => pure _

theorem compound {expression : List Expectation → Reader Expr}
    (h : ∀ others, StaysWithin (expression others)) (start : Nat) (others : List Expectation) :
    StaysWithin (Reader.compound expression start others) := by
  have hop : StaysWithin (do Reader.skipBlanks; expression [.blank]) :=
    skipBlanks.bind fun _ => h _
  have hclose : StaysWithin (do return ⟨start, ← Reader.close []⟩ : Reader Span) :=
    (close _).bind fun _ => pure _
  refine skipBlanks.bind fun _ => peek.bind fun token => ?_
  split
  · exact tail.bind fun _ => hop.bind fun _ => hclose.bind fun _ => pure _
  · exact tail.bind fun _ => hop.bind fun _ => hop.bind fun _ => hclose.bind fun _ => pure _
  · exact tail.bind fun _ => hop.bind fun _ => hop.bind fun _ => hop.bind fun _ =>
      hclose.bind fun _ => pure _
  · exact tail.bind fun _ => hop.bind fun _ => hop.bind fun _ => hop.bind fun _ =>
      hop.bind fun _ => hclose.bind fun _ => pure _
  · exact tail.bind fun _ => hop.bind fun _ => hop.bind fun _ => hop.bind fun _ =>
      hop.bind fun _ => hop.bind fun _ => hclose.bind fun _ => pure _
  · exact tail.bind fun _ => hop.bind fun _ => hop.operands.bind fun _ => pure _
  · exact tail.bind fun _ => (hop.binder.group _).bind fun _ => hop.bind fun _ =>
      hclose.bind fun _ => pure _
  · exact tail.bind fun _ => (site.group _).bind fun _ => hop.bind fun _ =>
      hclose.bind fun _ => pure _
  · exact tail.bind fun _ => skipBlanks.bind fun _ => (quoted _).bind fun _ =>
      hclose.bind fun _ => pure _
  · exact (h _).bind fun _ => hop.operands.bind fun _ => pure _

theorem expression (depth : Nat) (others : List Expectation) :
    StaysWithin (Reader.expression depth others) := by
  induction depth generalizing others with
  | zero => exact refuse _
  | succ depth ih =>
    refine (take _ _).bind fun l => ?_
    split
    · exact compound ih _ _
    · exact pure _
    · exact pure _
    · exact (quoted _).bind fun _ => pure _
    · exact (number _).bind fun _ => pure _
    · exact pure _
    · exact refuse _

theorem bracketedForm (depth start : Nat) : StaysWithin (Reader.bracketedForm depth start) := by
  have hop : StaysWithin (do Reader.skipBlanks; Reader.expression depth [.blank]) :=
    skipBlanks.bind fun _ => expression _ _
  refine skipBlanks.bind fun _ => peek.bind fun token => ?_
  split
  · exact tail.bind fun _ => site.bind fun _ => hop.bind fun _ => (close _).bind fun _ => pure _
  · exact tail.bind fun _ => site.bind fun _ => hop.bind fun _ => (close _).bind fun _ => pure _
  · exact tail.bind fun _ => hop.bind fun _ => hop.bind fun _ => hop.bind fun _ =>
      (close _).bind fun _ => pure _
  · exact (compound (expression depth) _ _).bind fun _ => pure _

theorem form (depth : Nat) : StaysWithin (Reader.form depth) := by
  have hexpression :
      StaysWithin (do return .expression (← Reader.expression depth [.blank, .endOfText]) :
        Reader Form) :=
    (expression _ _).bind fun _ => pure _
  intro ts
  cases ts with
  | nil => exact hexpression []
  | cons l ts =>
    by_cases hl : l.token = .opening
    · rw [form_eq_bracketedForm hl]
      exact (bracketedForm depth l.start ts).trans (List.suffix_cons l ts)
    · rw [form_eq_expression hl]
      exact hexpression _

theorem program (depth bound : Nat) : StaysWithin (Reader.program depth bound) := by
  induction bound with
  | zero => exact pure []
  | succ bound ih =>
    refine skipBlanks.bind fun _ => peek.bind fun token => ?_
    cases token with
    | none => exact pure []
    | some token => exact (form depth).bind fun _ => ih.bind fun _ => pure _

end StaysWithin

end Reader

open Reader

theorem readAll_eq_error {α : Type} {reader : Reader α} (h : StaysWithin reader) {size : Nat}
    {ts : List Lexeme} {e : ParseError} (herror : readAll reader size ts = .error e) :
    (∃ l ∈ ts, e.span = l.span) ∨ e.span = ⟨size, size⟩ := by
  have hleft := h ts
  unfold readAll at herror
  split at herror
  · cases herror
  case h_2 refusal hrefusal =>
    obtain ⟨rest, expected⟩ := refusal
    rw [hrefusal] at hleft
    cases herror
    cases rest with
    | nil => exact .inr rfl
    | cons l rest => exact .inl ⟨l, hleft.subset List.mem_cons_self, rfl⟩

/-- A parse error is at a lexeme, or at the end of the text. -/
theorem span_of_parseLexemes_eq_error {size : Nat} {ts : List Lexeme} {e : ParseError}
    (h : parseLexemes size ts = .error e) :
    (∃ l ∈ ts, e.span = l.span) ∨ e.span = ⟨size, size⟩ :=
  readAll_eq_error (.program _ _) h

end PieChecker.Surface
