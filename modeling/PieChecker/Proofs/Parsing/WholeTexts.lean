import PieChecker.Proofs.Parsing.OrderedChoice

set_option autoImplicit false

/-!
# Whole texts

A text is read as a program, or as an expression, by its parsing expression and by the readers
with the same outcome: the same tree, or an error at the same place with the same expectations.
So the ordered choice of the parsing expressions accepts exactly what the grammar derives.
-/

namespace PieChecker.Surface

namespace Peg

open Reader (skip firsts startsExpression)

variable {α : Type} {ts us rest : List Lexeme} {l : Lexeme} {r refusal : Refusal}
  {others : List Expectation} {n depth depth' : Nat}

/-- The same result, or refusals of the same lexemes with the same expectations. -/
inductive SameOutcome : Except Refusal (α × List Lexeme) →
    Except Refusal (α × List Lexeme) → Prop
  where
  | ok (x : α × List Lexeme) : SameOutcome (.ok x) (.ok x)
  | error {r s : Refusal} (h : r.Same s) : SameOutcome (.error r) (.error s)

/-! ## The end of a text -/

/-- What is reported where a result is followed by blanks and then the end of the text. -/
def atEnd (a : α) (rest : List Lexeme) (r : Refusal) : Except Refusal (α × List Lexeme) :=
  conclude ((do blanks; return a : Peg α) rest r)

theorem atEnd_of_nil (a : α) (h : skip rest = []) (r : Refusal) :
    atEnd a rest r = .ok (a, []) := by
  rw [atEnd, bind_of_some (blanks_run rest r), h]
  rfl

theorem atEnd_of_cons (a : α) (h : skip rest = l :: us) (r : Refusal) :
    atEnd a rest r = .error ((r.record (l :: us) .blank).record (l :: us) .endOfText) := by
  rw [atEnd, bind_of_some (blanks_run rest r), h]
  rfl

/-- A text that should have ended, where something else could have come too. -/
theorem sameOutcome_of_ready (a : α) (hr : r.Ready others rest) (hskip : skip rest = l :: us)
    {expected : List Expectation} (hnodup : expected.Nodup)
    (hmem : ∀ π, π ∈ .endOfText :: .blank :: others ↔ π ∈ expected) :
    SameOutcome (atEnd a rest r) (.error ⟨l :: us, expected⟩) := by
  rw [Refusal.Ready, hskip] at hr
  rw [atEnd_of_cons a hskip]
  exact .error ((hr.record .endOfText).same hnodup hmem)

/-- A text that was refused further on. -/
theorem sameOutcome_of_same (a : α) (hr : r.Same refusal) (hskip : skip rest = l :: us)
    (hrest : refusal.rest <:+ us) : SameOutcome (atEnd a rest r) (.error refusal) := by
  have hlt : r.rest.length < (l :: us).length := Nat.lt_succ_of_le (hr.1 ▸ hrest.length_le)
  rw [atEnd_of_cons a hskip, r.record_of_lt hlt, r.record_of_lt hlt]
  exact .error hr

/-! ## Programs -/

theorem program_of_nil (h : skip ts = []) (depth bound : Nat) :
    Reader.program depth (bound + 1) ts = .ok ([], []) := by
  rw [Reader.program, Reader.skipBlanks_peek, h]
  rfl

theorem program_of_cons (h : skip ts = l :: us) (depth bound : Nat) :
    Reader.program depth (bound + 1) ts =
      (do return (← Reader.form depth) :: (← Reader.program depth bound) : Reader (List Form))
        (l :: us) := by
  rw [Reader.program, Reader.skipBlanks_peek, h]
  rfl

theorem form_of_not_starts (h : startsExpression l.token = false)
    (hus : (l :: us).length < depth) :
    Reader.form depth (l :: us) = .error ⟨l :: us, [.blank, .endOfText] ++ firsts⟩ := by
  have hopening : l.token ≠ .opening := fun h' => by rw [h'] at h; cases h
  have hread := (expressionsAgree le_rfl le_rfl).refuses [.blank, .endOfText] hus
    fun l' hl' => by cases hl'; exact h
  rw [Reader.form_eq_expression hopening, Reader.bind_of_error hread]

theorem SameOutcome.atEnd_cons {q : Reader (List Form)} {form : Form} {forms : List Form}
    (h : SameOutcome (atEnd forms rest r) (q us)) :
    SameOutcome (atEnd (form :: forms) rest r)
      ((do return form :: (← q) : Reader (List Form)) us) := by
  rw [Reader.bind_run]
  generalize q us = x at h ⊢
  cases hskip : skip rest with
  | nil =>
    rw [atEnd_of_nil _ hskip] at h ⊢
    cases h
    exact .ok _
  | cons l us =>
    rw [atEnd_of_cons _ hskip] at h ⊢
    cases h with
    | error h => exact .error h

theorem mem_expected_form (π : Expectation) :
    π ∈ .endOfText :: .blank :: ([.opening] ++ ([.opening] ++ ([.opening] ++ firsts))) ↔
      π ∈ [.blank, .endOfText] ++ firsts := by
  have hopening : .opening ∈ firsts := by decide
  simp only [List.mem_cons, List.mem_append, List.not_mem_nil, or_false]
  constructor
  · rintro (h | h | h | h | h | h)
    · exact .inl (.inr h)
    · exact .inl (.inl h)
    · exact .inr (h ▸ hopening)
    · exact .inr (h ▸ hopening)
    · exact .inr (h ▸ hopening)
    · exact .inr h
  · rintro ((h | h) | h)
    · exact .inr (.inl h)
    · exact .inl h
    · exact .inr (.inr (.inr (.inr (.inr h))))

/-- One more form, or none: where the forms after it have the same outcome, so has this. -/
theorem sameOutcome_step {more : Peg (List Form)} {bound : Nat} (hd : n ≤ depth)
    (hd' : n + 1 ≤ depth') (hts : ts.length ≤ n) (hr : r.Ready [] ts)
    (hmore : ∀ ⦃rest : List Lexeme⦄ ⦃r : Refusal⦄, rest.length < ts.length → r.At rest [] →
      ∃ forms rest' r', more rest r = (some (forms, rest'), r') ∧
        SameOutcome (atEnd forms rest' r') (Reader.program depth' bound rest)) :
    ∃ forms rest r',
    ((do return (← (do blanks; topLevel (expression (depth + 1)))) :: (← more)) <|>
        return [] : Peg (List Form)) ts r = (some (forms, rest), r') ∧
      SameOutcome (atEnd forms rest r') (Reader.program depth' (bound + 1) ts) := by
  have hlen : (skip ts).length ≤ ts.length := (List.dropWhile_suffix _).length_le
  have hitem : (do blanks; topLevel (expression (depth + 1)) : Peg Form) ts r =
      topLevel (expression (depth + 1)) (skip ts) (r.record (skip ts) .blank) :=
    bind_of_some (blanks_run ts r)
  rw [Refusal.Ready] at hr
  rw [orElse_run]
  rcases starts_or_not startsExpression (skip ts) with ⟨l, us, hskip, hl⟩ | hnot
  · rw [hskip] at hitem hr hlen
    rw [List.length_cons] at hlen
    have hagrees := agrees_form hd hd' hl (by omega) hr
    rw [program_of_cons hskip, Reader.bind_run]
    rw [← hitem] at hagrees
    generalize hrun : (do blanks; topLevel (expression (depth + 1)) : Peg Form) ts r =
      o at hagrees
    generalize Reader.form depth' (l :: us) = x at hagrees ⊢
    cases hagrees with
    | @matched form rest r' hrest hr' =>
      have hrest' := hrest.length_le
      obtain ⟨forms, rest', r'', hforms, hsame⟩ := hmore (by omega) hr'
      refine ⟨form :: forms, rest', r'', ?_, ?_⟩
      · rw [bind_of_some hrun, bind_of_some hforms]
        rfl
      · exact hsame.atEnd_cons
    | failed hrest hr' =>
      refine ⟨[], ts, _, ?_, sameOutcome_of_same [] hr' hskip hrest⟩
      rw [bind_of_none hrun]
      rfl
  · have hagree := expressionsAgree (Nat.succ_le_succ hd) hd'
    have hdeclines := declines_topLevel hagree (by omega) hnot
    rw [bind_of_none (hitem.trans (hdeclines _))]
    refine ⟨[], ts, _, rfl, ?_⟩
    have hready :=
      (hr.recordAll ([.opening] ++ ([.opening] ++ ([.opening] ++ firsts)))).ready_of_skip
    cases hskip : skip ts with
    | nil =>
      rw [atEnd_of_nil [] hskip, program_of_nil hskip]
      exact .ok _
    | cons l us =>
      have hform : Reader.form depth' (l :: us) =
          .error ⟨l :: us, [.blank, .endOfText] ++ firsts⟩ := by
        rw [hskip] at hnot hlen
        exact form_of_not_starts (hnot l rfl) (by omega)
      rw [program_of_cons hskip, Reader.bind_of_error hform]
      rw [hskip] at hready
      exact sameOutcome_of_ready [] hready hskip (by decide) mem_expected_form

theorem sameOutcome_forms {bound bound' : Nat} (hd : n ≤ depth) (hd' : n + 1 ≤ depth')
    (hts : ts.length ≤ n) (hbound : ts.length < bound) (hbound' : ts.length < bound')
    (hr : r.At ts []) :
    ∃ forms rest r', manyUpTo (do blanks; topLevel (expression (depth + 1))) bound ts r =
        (some (forms, rest), r') ∧
      SameOutcome (atEnd forms rest r') (Reader.program depth' bound' ts) := by
  induction bound generalizing ts r bound' with
  | zero => omega
  | succ bound ih =>
    obtain ⟨bound', rfl⟩ : ∃ b, bound' = b + 1 := ⟨bound' - 1, by omega⟩
    exact sameOutcome_step hd hd' hts hr.ready fun rest r hrest hr =>
      ih (by omega) (by omega) (by omega) hr

theorem at_start (ts : List Lexeme) : (⟨ts, []⟩ : Refusal).At ts [] :=
  .here rfl List.nodup_nil fun _ => Iff.rfl

/-- A program is matched as it is read. -/
theorem sameOutcome_program (ts : List Lexeme) :
    SameOutcome (matchAll (program (ts.length + 1)) ts)
      (Reader.program (ts.length + 1) (ts.length + 1) ts) := by
  have hlen : (skip ts).length ≤ ts.length := (List.dropWhile_suffix _).length_le
  have hat := (at_start ts).ready
  have hskip := Reader.skip_skip ts
  have hrun : program (ts.length + 1) ts ⟨ts, []⟩ = (do
      let forms ← separated (topLevel (expression (ts.length + 1))) <|> return []
      blanks
      return forms : Peg (List Form)) (skip ts) (Refusal.record ⟨ts, []⟩ (skip ts) .blank) :=
    bind_of_some (blanks_run ts _)
  have hread : Reader.program (ts.length + 1) (ts.length + 1) ts =
      Reader.program (ts.length + 1) (ts.length + 1) (skip ts) := by
    rw [Reader.program, Reader.skipBlanks_peek, Reader.skipBlanks_peek, hskip]
  rw [Refusal.Ready] at hat
  rw [matchAll, hrun, hread]
  generalize Refusal.record ⟨ts, []⟩ (skip ts) .blank = r at hat ⊢
  generalize skip ts = us at hlen hat hskip ⊢
  -- the first form is matched as one after others is, since there are no more blanks before it
  have hfirst : (do blanks; topLevel (expression (ts.length + 1)) : Peg Form) us r =
      topLevel (expression (ts.length + 1)) us r := by
    rw [bind_of_some (blanks_run us r), hskip, hat.record_of_mem List.mem_cons_self]
  have hmore ⦃rest : List Lexeme⦄ ⦃r : Refusal⦄ (hrest : rest.length < us.length)
      (hr : r.At rest []) :
      ∃ forms rest' r', many (do blanks; topLevel (expression (ts.length + 1))) rest r =
          (some (forms, rest'), r') ∧
        SameOutcome (atEnd forms rest' r') (Reader.program (ts.length + 1) ts.length rest) :=
    sameOutcome_forms le_rfl le_rfl (by omega) (Nat.lt_succ_self _) (by omega) hr
  obtain ⟨forms, rest, r', hforms, hsame⟩ :=
    sameOutcome_step le_rfl le_rfl hlen (hskip.symm ▸ hat).ready_of_skip hmore
  have hmatched : (separated (topLevel (expression (ts.length + 1))) <|> return [] :
      Peg (List Form)) us r = (some (forms, rest), r') := by
    rw [← hforms, orElse_run, orElse_run, separated, bind_run, bind_run, hfirst]
  rw [bind_of_some hmatched]
  exact hsame

theorem sameOutcome_loneExpression (ts : List Lexeme) :
    SameOutcome (matchAll (loneExpression (ts.length + 1)) ts)
      (Reader.loneExpression (ts.length + 1) ts) := by
  have hlen : (skip ts).length ≤ ts.length := (List.dropWhile_suffix _).length_le
  have hat := (at_start ts).ready
  have hexpression := (expressionsAgree (n := ts.length + 1) le_rfl le_rfl).agrees
    (by omega) hat (by decide)
  have hrun : loneExpression (ts.length + 1) ts ⟨ts, []⟩ =
      (do let e ← expression (ts.length + 1); blanks; return e : Peg Expr) (skip ts)
        (Refusal.record ⟨ts, []⟩ (skip ts) .blank) := bind_of_some (blanks_run ts _)
  have hread : Reader.skipBlanks ts = .ok ((), skip ts) := rfl
  rw [matchAll, hrun, Reader.loneExpression, Reader.bind_of_ok hread, bind_run]
  generalize expression (ts.length + 1) (skip ts) _ = o at hexpression ⊢
  generalize hx : Reader.expression (ts.length + 1) [.blank] (skip ts) = x at hexpression
  cases hexpression with
  | failed hrest hr =>
    rw [Reader.bind_of_error hx]
    exact .error hr
  | @matched e rest r hrest hr =>
    show SameOutcome (atEnd e rest r) _
    rw [Reader.bind_of_ok hx, Reader.skipBlanks_peek]
    cases hskip : skip rest with
    | nil =>
      rw [atEnd_of_nil e hskip]
      exact .ok _
    | cons l us => exact sameOutcome_of_ready e hr.ready hskip (by decide) (by simp [or_comm])

end Peg

/-! ## Parsing -/

open Grammar Peg

variable {α : Type}

/-- The same tree, or errors at the same place with, in any order, the same expectations. -/
inductive SameReading : Except ParseError α → Except ParseError α → Prop where
  | ok (a : α) : SameReading (.ok a) (.ok a)
  | error {e e' : ParseError} (hspan : e.span = e'.span)
      (hexpected : e.expected.Perm e'.expected) :
    SameReading (.error e) (.error e')

theorem Peg.SameOutcome.readAll {p q : Reader α} {ts : List Lexeme}
    (h : SameOutcome (p ts) (q ts)) (size : Nat) :
    SameReading (readAll p size ts) (readAll q size ts) := by
  unfold Surface.readAll
  generalize p ts = x at h ⊢
  generalize q ts = y at h ⊢
  cases h with
  | ok x => exact .ok x.1
  | @error r s h =>
    obtain ⟨hrest, hexpected⟩ := h
    refine .error ?_ hexpected
    rw [hrest]

theorem SameReading.eq_ok_iff {x y : Except ParseError α} (h : SameReading x y) (a : α) :
    x = .ok a ↔ y = .ok a := by
  cases h with
  | ok b => exact Iff.rfl
  | error => exact ⟨nofun, nofun⟩

theorem SameReading.exists_error {x y : Except ParseError α} (h : SameReading x y)
    {e : ParseError} (hx : x = .error e) : ∃ e', y = .error e' ∧ e.span = e'.span ∧
    e.expected.Perm e'.expected := by
  cases h with
  | ok b => cases hx
  | error hspan hexpected =>
    cases hx
    exact ⟨_, rfl, hspan, hexpected⟩

theorem SameReading.error_of_error {x y : Except ParseError α} (h : SameReading x y)
    {e : ParseError} (hy : y = .error e) :
    ∃ e', x = .error e' ∧ e'.span = e.span ∧ e'.expected.Perm e.expected := by
  cases h with
  | ok b => cases hy
  | error hspan hexpected =>
    cases hy
    exact ⟨_, rfl, hspan, hexpected⟩

/-- Parsing expressions and readers parse programs in the same way. -/
theorem sameReading_parseLexemes (size : Nat) (ts : List Lexeme) :
    SameReading (Peg.parseLexemes size ts) (parseLexemes size ts) :=
  (sameOutcome_program ts).readAll size

theorem sameReading_parseLexemesAsExpression (size : Nat) (ts : List Lexeme) :
    SameReading (Peg.parseLexemesAsExpression size ts) (parseLexemesAsExpression size ts) :=
  (sameOutcome_loneExpression ts).readAll size

/-- The parsing expressions match exactly what the grammar derives, where they return the
derived tree, and there is only one. Reading has the same outcome. -/
theorem parse_exact (size : Nat) (ts : List Lexeme) :
    (∀ forms, Peg.parseLexemes size ts = .ok forms ↔ Program ts forms) ∧
      (∀ forms forms', Program ts forms → Program ts forms' → forms = forms') ∧
      (∀ e, Peg.parseLexemesAsExpression size ts = .ok e ↔ LoneExpression ts e) ∧
      (∀ e e', LoneExpression ts e → LoneExpression ts e' → e = e') ∧
      SameReading (Peg.parseLexemes size ts) (parseLexemes size ts) ∧
      SameReading (Peg.parseLexemesAsExpression size ts)
        (parseLexemesAsExpression size ts) := by
  have hprogram := sameReading_parseLexemes size ts
  have hexpression := sameReading_parseLexemesAsExpression size ts
  refine ⟨fun forms => ?_, fun forms forms' h h' => ?_, fun e => ?_, fun e e' h h' =>
    ?_, hprogram, hexpression⟩
  · rw [hprogram.eq_ok_iff, parseLexemes_eq_ok_iff]
  · rw [← parseLexemes_eq_ok_iff size] at h h'
    exact Except.ok.inj (h.symm.trans h')
  · rw [hexpression.eq_ok_iff, parseLexemesAsExpression_eq_ok_iff]
  · rw [← parseLexemesAsExpression_eq_ok_iff size] at h h'
    exact Except.ok.inj (h.symm.trans h')

end PieChecker.Surface
