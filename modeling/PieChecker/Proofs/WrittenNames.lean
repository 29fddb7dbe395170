import Mathlib.Data.List.Infix
import PieChecker.Proofs.Parsing.Quotation
import PieChecker.Proofs.Parsing.Rereading
import PieChecker.Proofs.Simulation.ReadBack
import PieChecker.Typing.Scope

set_option autoImplicit false

/-!
# The names that a text writes

A name in a text is quoted if it comes after a tick, or after the keyword `quote` at the start
of brackets. All other names of the text are those of the expression that is read from it, in
the same order and with all repetitions. So a binder that elaboration introduces around
expressions gets a name that the program does not write in them, and it cannot capture a
reference.

That a name is quoted can be told by looking back from it, and it does not take more than two
lexemes apart from blanks.
-/

namespace PieChecker

/-! ## Looking back from a place -/

/-- The tokens of lexemes apart from blanks, the last one first. -/
def lookBack (before : List Lexeme) : List Token :=
  ((before.map Lexeme.token).filter (· ≠ .blank)).reverse

/-- Is a place quoted, by the tokens that are found when looking back from it? -/
def isQuoted : List Token → Bool
  | .tick :: _ => true
  | .keyword .quote :: .opening :: _ => true
  | _ => false

/-- The names among lexemes that are not quoted. Every lexeme is paired with those before it. -/
def unquotedNames (ts : List Lexeme) : List String :=
  ((ts.inits.zip ts).filter fun p => p.2.token = .name && !isQuoted (lookBack p.1)).map fun p =>
    p.2.text

theorem lookBack_append_blank (before : List Lexeme) {l : Lexeme} (hl : l.token = .blank) :
    lookBack (before ++ [l]) = lookBack before := by
  simp [lookBack, hl]

theorem lookBack_append (before : List Lexeme) {l : Lexeme} (hl : l.token ≠ .blank) :
    lookBack (before ++ [l]) = l.token :: lookBack before := by
  simp [lookBack, hl]

theorem isQuoted_quote (tokens : List Token) :
    isQuoted (.keyword .quote :: tokens) = true ↔ tokens.head? = some .opening := by
  cases tokens with
  | nil => simp [isQuoted]
  | cons t tokens => cases t <;> simp [isQuoted]

namespace Quotation

/-- What is known at a place is what looking back from it tells. -/
structure AgreesWith (q : Quotation) (tokens : List Token) : Prop where
  quoted_iff : q = quoted ↔ isQuoted tokens = true
  opened_iff : q = opened ↔ tokens.head? = some .opening

theorem AgreesWith.next {q : Quotation} {tokens : List Token} (h : q.AgreesWith tokens)
    {t : Token} (ht : t ≠ .blank) :
    (q.next t).AgreesWith (t :: tokens) := by
  cases t with
  | blank => exact (ht rfl).elim
  | opening | closing | tick | name | number => constructor <;> simp [Quotation.next, isQuoted]
  | keyword k =>
    cases k with
    | quote =>
      -- It quotes what comes next only if it is the first one in brackets itself.
      refine ⟨?_, ?_⟩
      · rw [isQuoted_quote, ← h.opened_iff]
        simp [Quotation.next]
      · rw [Quotation.next]
        split <;> simp
    | _ => constructor <;> simp [Quotation.next, isQuoted]

theorem agreesWith_lookBack (before : List Lexeme) :
    (plain.after before).AgreesWith (lookBack before) := by
  induction before using List.reverseRecOn with
  | nil => constructor <;> decide
  | append_singleton before l ih =>
    rw [after_append]
    by_cases hl : l.token = .blank
    · rw [lookBack_append_blank before hl, after, List.foldl_cons, hl]
      exact ih
    · rw [lookBack_append before hl]
      exact ih.next hl

/-- Going through the lexemes finds the names that are not quoted. -/
theorem names_after (before ts : List Lexeme) : (plain.after before).names ts =
    (((ts.inits.map (before ++ ·)).zip ts).filter fun p =>
      p.2.token = .name && !isQuoted (lookBack p.1)).map
      fun p => p.2.text := by
  induction ts generalizing before with
  | nil => rfl
  | cons l ts ih =>
    have hnext : (plain.after before).next l.token = plain.after (before ++ [l]) := by
      rw [after_append]
      rfl
    have hinits : (l :: ts).inits.map (before ++ ·) = before ::
        ts.inits.map ((before ++ [l]) ++ ·) := by simp
    have hquoted : l.token = .name ∧ plain.after before ≠ quoted ↔
        (l.token = .name && !isQuoted (lookBack before)) = true := by
      rw [ne_eq, (agreesWith_lookBack before).quoted_iff]
      simp
    rw [names, hnext, ih, hinits, List.zip_cons_cons, List.filter_cons]
    simp only [hquoted]
    split <;> rfl

theorem names_eq_unquotedNames (ts : List Lexeme) : plain.names ts = unquotedNames ts := by
  have hnames := names_after [] ts
  simp only [List.nil_append, List.map_id'] at hnames
  exact hnames

end Quotation

namespace Surface

open Grammar

/-! ## What is read from a text -/

variable {source : String} {e : Expr}

theorem names_of_parseExpression (h : parseExpression source = .ok e) :
    ∃ ts, lex source = .ok ts ∧ e.names = unquotedNames ts := by
  obtain ⟨ts, hlex, hlone⟩ := parseExpression_eq_ok_iff.1 h
  refine ⟨ts, hlex, ?_⟩
  rw [← Quotation.names_eq_unquotedNames, hlone.finds.names_eq]

theorem names_of_parse {forms : List Form} (h : parse source = .ok forms) :
    ∃ ts, lex source = .ok ts ∧ forms.flatMap Form.names = unquotedNames ts := by
  obtain ⟨ts, hlex, hprogram⟩ := parse_eq_ok_iff.1 h
  refine ⟨ts, hlex, ?_⟩
  rw [← Quotation.names_eq_unquotedNames, hprogram.finds.names_eq]

/-- The expression is a node of what is read from the text, as an expression or as a program. -/
inductive Expr.ReadFrom (source : String) (e : Expr) : Prop where
  | expression {whole : Expr} (h : parseExpression source = .ok whole) (he : e.Within whole) :
      ReadFrom source e
  | program {forms : List Form} {form : Form} {whole : Expr} (h : parse source = .ok forms)
      (hform : form ∈ forms)
    (hwhole : .expr whole ∈ form.constituents) (he : e.Within whole) : ReadFrom source e

theorem Expr.ReadFrom.faithful (h : e.ReadFrom source) : e.Faithful source := by
  cases h with
  | expression h he =>
    obtain ⟨ts, hlex, hlone⟩ := parseExpression_eq_ok_iff.1 h
    exact (hlone.arranged.faithful hlex).2 _ e List.mem_cons_self he
  | program h hform hwhole he =>
    obtain ⟨ts, hlex, hprogram⟩ := parse_eq_ok_iff.1 h
    exact (hprogram.arranged.faithful hlex).2 _ e (List.mem_flatMap.2 ⟨_, hform, hwhole⟩) he

/-- The names of a node are those that the text writes at its place and does not quote. -/
theorem Expr.ReadFrom.names_eq (h : e.ReadFrom source) :
    ∃ text ts, e.span.text? source = some text ∧ lex text = .ok ts ∧
    e.names = unquotedNames ts := by
  -- Read alone, the text at the place of the node gives the node itself, only at other places.
  obtain ⟨text, d, htext, hparse, hrelocate⟩ := h.faithful.reread
  obtain ⟨ts, hlex, hnames⟩ := names_of_parseExpression hparse
  refine ⟨text, ts, htext, hlex, ?_⟩
  rw [← hrelocate, Expr.names_relocate, hnames]

/-- The names of what is read from a text, as an expression or as a program, are those that the
text writes and does not quote, in the order of the text and with all repetitions. Hence the
name of a binder that elaboration introduces around expressions is not bound in the context, and
wherever one of the expressions is read from, the text does not write that name there without
quoting it. -/
theorem names_as_written :
    (∀ source e, parseExpression source = .ok e → ∃ ts, lex source = .ok ts ∧
      e.names = unquotedNames ts) ∧
    (∀ source forms, parse source = .ok forms →
      ∃ ts, lex source = .ok ts ∧ forms.flatMap Form.names = unquotedNames ts) ∧
    ∀ (S : Scope) (es : List Expr) (suggestion y : String),
      S.freshBinder (Expr.namesOfList es) suggestion = .ok y →
      y ∉ S.context.names ∧ ∀ e ∈ es, ∀ source, e.ReadFrom source →
        ∃ text ts, e.span.text? source = some text ∧ lex text = .ok ts ∧
        y ∉ unquotedNames ts := by
  refine ⟨fun _ _ => names_of_parseExpression, fun _ _ => names_of_parse,
    fun S es suggestion y hy => ?_⟩
  have hnew := Name.freshen_not_mem hy
  rw [List.mem_append, not_or, Expr.namesOfList_eq] at hnew
  refine ⟨hnew.1, fun e he source hsource => ?_⟩
  obtain ⟨text, ts, htext, hlex, hnames⟩ := hsource.names_eq
  refine ⟨text, ts, htext, hlex, fun hmem => hnew.2 ?_⟩
  rw [← hnames] at hmem
  exact List.mem_flatMap.2 ⟨e, he, hmem⟩

/-- The pair quotes `x₁` and does not write this name otherwise, so it is free for a binder
around the pair. -/
theorem names_as_written_pair :
    let source := "(λ (x₂) (cons 'x₁ (f x)))"
    let application : Expr := .apply ⟨23, 28⟩ (.var ⟨24, 25⟩ "f") [.var ⟨26, 27⟩ "x"]
    let pair : Expr := .binary ⟨11, 29⟩ .cons (.quote ⟨17, 22⟩ "x₁") application
    let whole : Expr := .lambda ⟨0, 30⟩ [⟨⟨5, 9⟩, "x₂"⟩] pair
    let S : Scope := .ofContext (Context.empty.claim "x" .nat)
    parseExpression source = .ok whole ∧ parse source = .ok [.expression whole] ∧
      pair.ReadFrom source ∧
      (∃ ts, lex source = .ok ts ∧ unquotedNames ts = ["x₂", "f", "x"] ∧
        whole.names = unquotedNames ts ∧ [Form.expression whole].flatMap Form.names =
          unquotedNames ts) ∧
      S.freshBinder (Expr.namesOfList [pair]) "x" = .ok "x₁" ∧ "x₁" ∉ S.context.names ∧
      ∃ text ts, pair.span.text? source = some text ∧ lex text = .ok ts ∧
      "x₁" ∉ unquotedNames ts := by
  intro source application pair whole S
  have hlex : lex source = .ok [⟨.opening, 0, "("⟩, ⟨.keyword .lambda, 1, "λ"⟩,
      ⟨.blank, 3, " "⟩, ⟨.opening, 4, "("⟩, ⟨.name, 5, "x₂"⟩, ⟨.closing, 9, ")"⟩,
      ⟨.blank, 10, " "⟩, ⟨.opening, 11, "("⟩, ⟨.keyword (.binary .cons), 12, "cons"⟩,
      ⟨.blank, 16, " "⟩, ⟨.tick, 17, "'"⟩, ⟨.name, 18, "x₁"⟩, ⟨.blank, 22, " "⟩,
      ⟨.opening, 23, "("⟩, ⟨.name, 24, "f"⟩, ⟨.blank, 25, " "⟩, ⟨.name, 26, "x"⟩,
      ⟨.closing, 27, ")"⟩, ⟨.closing, 28, ")"⟩, ⟨.closing, 29, ")"⟩] := by decide +kernel
  have hexpression : parseExpression source = .ok whole := by
    rw [parseExpression, hlex]
    rfl
  have hprogram : parse source = .ok [.expression whole] := by
    rw [parse, hlex]
    rfl
  have hread : pair.ReadFrom source :=
    .expression hexpression (.inside (by simp [whole, Expr.constituents]) (.self pair))
  have hfresh : S.freshBinder (Expr.namesOfList [pair]) "x" = .ok "x₁" := by decide +kernel
  obtain ⟨hexpressions, hprograms, hbinders⟩ := names_as_written
  obtain ⟨ts, hts, hnames⟩ := hexpressions source whole hexpression
  obtain ⟨ts', hts', hforms⟩ := hprograms source _ hprogram
  cases hts.symm.trans hts'
  obtain ⟨hnew, hwritten⟩ := hbinders S [pair] "x" "x₁" hfresh
  exact ⟨hexpression, hprogram, hread, ⟨ts, hts, hnames.symm, hnames, hforms⟩, hfresh, hnew,
    hwritten pair List.mem_cons_self source hread⟩

end Surface

end PieChecker
