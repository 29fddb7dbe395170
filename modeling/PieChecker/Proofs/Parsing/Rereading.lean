import PieChecker.Proofs.ByteCuts
import PieChecker.Proofs.Parsing.Constituents
import PieChecker.Proofs.Parsing.ParseErrors

set_option autoImplicit false

/-!
# Places are faithful to the text

Every node of an expression that was read from a text has a place in the text. The place is not
empty, and it begins and ends between characters. The constituents of the node follow each other
strictly inside of it. What the text has there is the node itself: read alone it gives the same
expression, with all places counted from the start of the node. What the text has at the place
of a binding is the name that is bound.

A node has a stretch of the lexemes to itself. Its brackets pair up, so it is a text with these
lexemes, and whether lexemes are an expression does not depend on their positions.
-/

namespace PieChecker.Surface

open Text (byteSize)
open Lexer Grammar

/-- The name stands in the text at its place. -/
structure Site.Faithful (source : String) (site : Site) : Prop where
  nonempty : site.span.start < site.span.stop
  text : site.span.text? source = some site.name

/-- The place of an expression in the text is its own, and has those of its constituents
inside. -/
structure Expr.Faithful (source : String) (e : Expr) : Prop where
  nonempty : e.span.start < e.span.stop
  /-- The text at the place, read alone, gives the same expression at places that are counted
  from there. -/
  reread : ∃ text d, e.span.text? source = some text ∧ parseExpression text = .ok d ∧
    d.relocate (Span.shift e.span.start) = e
  inside : ∀ c ∈ e.constituents, e.span.start < c.span.start ∧ c.span.stop < e.span.stop
  ordered : e.constituents.Pairwise fun c d => c.span.stop ≤ d.span.start
  sites : ∀ site, .site site ∈ e.constituents → site.Faithful source

/-! ## Lexemes at other positions -/

namespace Grammar

variable {ts : List Lexeme} {e : Expr}

theorem fits_shift {n : Nat} {l : Lexeme} {π : Expectation} : Fits (l.shift n) π ↔ Fits l π :=
  ⟨fun h => ⟨h.met, h.small⟩, fun h => ⟨h.met, h.small⟩⟩

/-- The positions of lexemes have no part in what is a sentence. -/
theorem sentence_shift {n : Nat} {nonterminal : Nonterminal} :
    nonterminal.Sentence (ts.map (Lexeme.shift n)) ↔ nonterminal.Sentence ts := by
  simp only [Nonterminal.Sentence, List.forall₂_map_left_iff, fits_shift]

theorem LoneExpression.shift (n : Nat) (h : LoneExpression ts e) :
    LoneExpression (ts.map (Lexeme.shift n)) (e.relocate (Span.shift n)) := by
  obtain ⟨hb, h, hb₁⟩ := h
  rw [List.map_append, List.map_append]
  exact .mk (hb.shift n) (h.shift n) (hb₁.shift n)

theorem LoneExpression.unique {e' : Expr} (h : LoneExpression ts e)
    (h' : LoneExpression ts e') : e = e' := by
  rw [← parseLexemesAsExpression_eq_ok_iff 0] at h h'
  exact Except.ok.inj (h.symm.trans h')

/-- Where an expression can be read, it can be read at other positions. -/
theorem LoneExpression.of_shift {n : Nat} (h : LoneExpression (ts.map (Lexeme.shift n)) e) :
    ∃ d, LoneExpression ts d ∧ d.relocate (Span.shift n) = e := by
  have hsentence := sentence_shift.1 ((sentence_loneExpression_iff _).2 ⟨e, h⟩)
  obtain ⟨d, hd⟩ := (sentence_loneExpression_iff ts).1 hsentence
  exact ⟨d, hd, (hd.shift n).unique h⟩

theorem Expression.loneExpression (h : Expression ts e) : LoneExpression ts e := by
  have hlone := LoneExpression.mk .nil h .nil
  rwa [List.nil_append, List.append_nil] at hlone

end Grammar

theorem parseExpression_eq_ok_iff {source : String} {e : Expr} :
    parseExpression source = .ok e ↔ ∃ ts, lex source = .ok ts ∧ LoneExpression ts e := by
  rw [parseExpression, bind_eq_ok_iff]
  simp only [mapError_eq_ok_iff, parseLexemesAsExpression_eq_ok_iff]

/-! ## Nodes in the text -/

section Nodes

variable {source : String} {xs ts : List Lexeme}

/-- Lexemes that follow each other cover a part of the text. -/
theorem exists_stretch (hlex : lex source = .ok xs) (hts : ts <:+: xs) :
    ∃ before inside after m, source.toList = before ++ inside ++ after ∧ inside = m.flatten ∧
      ts = lexemesFrom (byteSize before) m ∧
      Consecutive (byteSize before) ts (byteSize before + byteSize inside) ∧
      (Balanced ts → lex (String.ofList inside) = .ok (lexemesFrom 0 m)) := by
  obtain ⟨before, m, after, hpieces, rfl⟩ := exists_pieces_of_infix hlex hts
  refine ⟨before.flatten, m.flatten, after.flatten, m, ?_, rfl, rfl, ?_,
    lex_flatten hlex hpieces⟩
  · rw [← flatten_pieces source.toList, hpieces, List.flatten_append, List.flatten_append]
  · refine consecutive_lexemesFrom _ fun cs hcs => ?_
    have hmem : cs ∈ pieces source.toList := by simp [hpieces, hcs]
    exact (isPiece_of_mem_pieces hmem).ne_nil

theorem Grammar.BindingSite.faithful {site : Site} (h : BindingSite ts site)
    (hlex : lex source = .ok xs) (hts : ts <:+: xs) : site.Faithful source := by
  obtain ⟨before, inside, after, m, hsource, rfl, hlexemes, hconsecutive, -⟩ :=
    exists_stretch hlex hts
  have hspan : site.span = _ := (IsConstituent.site h).span_eq hconsecutive
  have htext := Span.text?_of_append hsource
  constructor
  case nonempty =>
    rw [hspan]
    exact hconsecutive.lt (IsConstituent.site h).ne_nil
  case text =>
    rw [hspan, htext]
    -- The one lexeme is one piece.
    cases h with
    | @name l _ =>
      have hpieces := texts_lexemesFrom (byteSize before) m
      rw [← hlexemes, List.map_singleton] at hpieces
      rw [← hpieces, List.flatten_singleton, String.ofList_toList]

theorem Grammar.Expression.faithful {e : Expr} (h : Expression ts e)
    (hlex : lex source = .ok xs) (hts : ts <:+: xs) :
    e.Faithful source := by
  obtain ⟨before, inside, after, m, hsource, -, rfl, hconsecutive, hself⟩ :=
    exists_stretch hlex hts
  have hspan := h.layout.span_eq hconsecutive
  have hlt := hconsecutive.lt h.layout.ne_nil
  obtain ⟨hinside, hordered⟩ := h.ordered hconsecutive
  constructor
  case nonempty =>
    rw [hspan]
    exact hlt
  case reread =>
    have hlone := h.loneExpression
    rw [← Nat.zero_add (byteSize before), lexemesFrom_add] at hlone
    obtain ⟨d, hd, hrelocate⟩ := hlone.of_shift
    rw [hspan]
    refine ⟨String.ofList inside, d, Span.text?_of_append hsource, ?_, hrelocate⟩
    exact parseExpression_eq_ok_iff.2 ⟨_, hself h.balanced, hd⟩
  case inside =>
    rw [hspan]
    exact hinside
  case ordered => exact hordered
  case sites =>
    intro site hsite
    obtain ⟨used, hused, hc⟩ := h.exists_infix_constituent hsite
    cases hc with
    | site hs => exact hs.faithful hlex (hused.trans hts)

/-- What is read from a text is faithful to it if it is arranged by its lexemes. -/
theorem Grammar.Arranged.faithful {cs : List Constituent} (h : Arranged xs cs)
    (hlex : lex source = .ok xs) :
    (∀ site, .site site ∈ cs → site.Faithful source) ∧
      ∀ e d : Expr, .expr e ∈ cs → d.Within e → d.Faithful source := by
  constructor
  · intro site hsite
    obtain ⟨used, hused, hc⟩ := h.exists_infix hsite
    cases hc with
    | site hs => exact hs.faithful hlex hused
  · intro e d he hd
    obtain ⟨used, hused, hc⟩ := h.exists_infix he
    cases hc with
    | expr he =>
      obtain ⟨us, hus, hd⟩ := he.exists_infix hd
      exact hd.faithful hlex (hus.trans hused)

end Nodes

/-- In a program or an expression that is read from a text, every node and every name in binding
position is faithful to the text. -/
theorem places_faithful (source : String) :
    (∀ forms, parse source = .ok forms →
      (∀ form ∈ forms, ∀ site, .site site ∈ form.constituents → site.Faithful source) ∧
      ∀ form ∈ forms, ∀ e d : Expr, .expr e ∈ form.constituents → d.Within e →
      d.Faithful source) ∧
    ∀ e, parseExpression source = .ok e → ∀ d : Expr, d.Within e → d.Faithful source := by
  refine ⟨fun forms h => ?_, fun e h d hd => ?_⟩
  · obtain ⟨xs, hlex, hprogram⟩ := parse_eq_ok_iff.1 h
    obtain ⟨hsites, hnodes⟩ := hprogram.arranged.faithful hlex
    constructor
    · intro form hform site hsite
      exact hsites site (List.mem_flatMap.2 ⟨form, hform, hsite⟩)
    · intro form hform e d he
      exact hnodes e d (List.mem_flatMap.2 ⟨form, hform, he⟩)
  · obtain ⟨xs, hlex, hlone⟩ := parseExpression_eq_ok_iff.1 h
    exact (hlone.arranged.faithful hlex).2 e d List.mem_cons_self hd

/-- A node below a binder, in a text with a character of two bytes before it, and the same node
by itself. -/
theorem places_faithful_add1 :
    let source := "(define f (λ (x) (add1 x)))"
    let inner : Expr := .unary ⟨18, 26⟩ .add1 (.var ⟨24, 25⟩ "x")
    let body : Expr := .lambda ⟨10, 27⟩ [⟨⟨15, 16⟩, "x"⟩] inner
    let alone : Expr := .unary ⟨0, 8⟩ .add1 (.var ⟨6, 7⟩ "x")
    parse source = .ok [.define ⟨⟨8, 9⟩, "f"⟩ body] ∧ Site.Faithful source ⟨⟨8, 9⟩, "f"⟩ ∧
      inner.Within body ∧
      inner.Faithful source ∧ parseExpression "(add1 x)" = .ok alone ∧
      alone.Faithful "(add1 x)" := by
  intro source inner body alone
  have hlex : lex source = .ok [⟨.opening, 0, "("⟩, ⟨.keyword (.opener .define), 1, "define"⟩,
      ⟨.blank, 7, " "⟩, ⟨.name, 8, "f"⟩, ⟨.blank, 9, " "⟩, ⟨.opening, 10, "("⟩,
      ⟨.keyword .lambda, 11, "λ"⟩, ⟨.blank, 13, " "⟩, ⟨.opening, 14, "("⟩, ⟨.name, 15, "x"⟩,
      ⟨.closing, 16, ")"⟩, ⟨.blank, 17, " "⟩, ⟨.opening, 18, "("⟩,
      ⟨.keyword (.unary .add1), 19, "add1"⟩, ⟨.blank, 23, " "⟩, ⟨.name, 24, "x"⟩,
      ⟨.closing, 25, ")"⟩, ⟨.closing, 26, ")"⟩, ⟨.closing, 27, ")"⟩] := by decide +kernel
  have halone : lex "(add1 x)" =
      .ok [⟨.opening, 0, "("⟩, ⟨.keyword (.unary .add1), 1, "add1"⟩, ⟨.blank, 5, " "⟩,
        ⟨.name, 6, "x"⟩, ⟨.closing, 7, ")"⟩] := by decide +kernel
  have hparse : parse source = .ok [.define ⟨⟨8, 9⟩, "f"⟩ body] := by
    rw [parse, hlex]
    rfl
  have hparseAlone : parseExpression "(add1 x)" = .ok alone := by
    rw [parseExpression, halone]
    rfl
  have hwithin : inner.Within body := .inside (by simp [body, Expr.constituents]) (.self inner)
  obtain ⟨hsites, hnodes⟩ := (places_faithful source).1 _ hparse
  have hsite := hsites _ List.mem_cons_self ⟨⟨8, 9⟩, "f"⟩ (by simp [Form.constituents])
  have hinner := hnodes _ List.mem_cons_self body inner (by simp [Form.constituents]) hwithin
  exact ⟨hparse, hsite, hwithin, hinner, hparseAlone,
    (places_faithful _).2 _ hparseAlone _ (.self alone)⟩

end PieChecker.Surface
