import PieChecker.Proofs.Parsing.FurthestFailures
import PieChecker.Proofs.Parsing.Programs

set_option autoImplicit false

/-!
# Ordered choice

The parsing expressions of the grammar simulate the readers. Their alternatives are ordered, but
no two of them start with the same lexeme after those that they share, so whichever alternative
is taken first, the others fail before it does.
-/

namespace PieChecker.Surface.Peg

open Reader (skip firsts startsExpression content furtherOperands isMetBy_keyword
  isMetBy_opening)

variable {e : Peg Expr} {f : List Expectation → Reader Expr} {n : Nat} {ts us : List Lexeme}
  {l : Lexeme} {r : Refusal} {tested others : List Expectation}

/-- The parsing expression and the reader of expressions agree, whatever else could have
come. -/
structure ExpressionsAgree (n : Nat) (e : Peg Expr) (f : List Expectation → Reader Expr) :
    Prop where
  started : ∀ ⦃l : Lexeme⦄ ⦃us : List Lexeme⦄ ⦃r : Refusal⦄
    ⦃tested : List Expectation⦄ (others), startsExpression l.token = true →
    (l :: us).length < n → r.At (l :: us) tested →
    Agrees us (e (l :: us) r) (f others (l :: us))
  declines : ∀ ⦃us : List Lexeme⦄, us.length < n →
    (∀ l ∈ us.head?, startsExpression l.token = false) → Declines e us firsts
  refuses : ∀ ⦃us : List Lexeme⦄ (others), us.length < n →
    (∀ l ∈ us.head?, startsExpression l.token = false) →
    f others us = .error ⟨us, others ++ firsts⟩

theorem ExpressionsAgree.agrees (h : ExpressionsAgree n e f) (hts : ts.length < n)
    {π : Expectation} (hr : r.At ts (π :: others)) (hnodup : (π :: others ++ firsts).Nodup) :
    Agrees ts (e ts r) (f (π :: others) ts) := by
  rcases starts_or_not startsExpression ts with ⟨l, us, rfl, hl⟩ | hnot
  · exact (h.started _ hl hts hr).mono (List.suffix_cons l us)
  · exact (h.declines hts hnot).agrees hr (h.refuses _ hts hnot) (fun _ => Iff.rfl) hnodup

/-! ## Items -/

theorem ExpressionsAgree.items (h : ExpressionsAgree n e f) :
    ItemsAgree n e (do Reader.skipBlanks; f [.blank]) startsExpression firsts where
  started l us r hl hus hr := by
    have hread : (do Reader.skipBlanks; f [.blank] : Reader Expr) (l :: us) =
        f [.blank] (skip (l :: us)) := rfl
    rw [hread, Reader.skip_cons (Reader.ne_blank_of_startsExpression hl)]
    exact h.started _ hl hus hr
  declines := h.declines
  refuses us hus hskip hnot := by
    have hread : (do Reader.skipBlanks; f [.blank] : Reader Expr) us =
        f [.blank] (skip us) := rfl
    rw [hread, hskip]
    exact h.refuses _ hus hnot
  skips ts := congrArg (f [.blank]) (Reader.skip_skip ts).symm
  closing := rfl
  nodup := by decide

theorem items_site (n : Nat) :
    ItemsAgree n site Reader.site Expectation.name.isMetBy [.name] where
  started l us r hl _ hr := by
    have hne : l.token ≠ .blank := fun h => by rw [h] at hl; cases hl
    have hread : Reader.site (l :: us) = .ok (⟨l.span, l.text⟩, us) :=
      Reader.bind_eq_ok_iff.2 ⟨l, us, Reader.takeNext_of_met (Reader.skip_cons hne us) hl, rfl⟩
    rw [site, bind_of_some (test_of_met hl us r), hread]
    exact .matched (List.suffix_refl us) (hr.later (Nat.lt_succ_self _))
  declines us _ hnot := (declines_test hnot).bind _
  refuses us _ hskip hnot := by
    have htake : Reader.takeNext .name [] us = .error ⟨skip us, [.blank, .name]⟩ :=
      Reader.takeNext_of_not_met (hskip.symm ▸ hnot)
    rw [hskip] at htake
    exact Reader.bind_of_error htake
  skips ts := by
    have hread (us : List Lexeme) : Reader.site us =
        (do let l ← Reader.take [.name] [.blank]; return ⟨l.span, l.text⟩ : Reader Site)
        (skip us) :=
      rfl
    rw [hread, hread, Reader.skip_skip]
  closing := rfl
  nodup := by decide

section Operands

variable (h : ExpressionsAgree n e f)

include h

theorem simulates_operand : Simulates n (operand e) (do Reader.skipBlanks; f [.blank]) :=
  h.items.simulates

theorem items_binder : ItemsAgree n (typedBinder e)
    (Reader.binder do Reader.skipBlanks; f [.blank]) Expectation.opening.isMetBy
    [.opening] where
  started l us r hl hus hr := by
    have hopening := (isMetBy_opening _).1 hl
    have hread : Reader.binder (do Reader.skipBlanks; f [.blank]) (l :: us) = (do
          let x ← Reader.site
          let ty ← (do Reader.skipBlanks; f [.blank])
          let _ ← Reader.close []
          return (x, ty) : Reader (Site × Expr)) us :=
      Reader.bind_of_ok (Reader.takeNext_of_met (Reader.skip_cons (hopening ▸ nofun) us) hl)
    have hparts : Simulates n (do blanks; return (← site, ← operand e)) (do
        let x ← Reader.site
        let ty ← (do Reader.skipBlanks; f [.blank])
        return (x, ty)) := by
      have hsite := (simulates_site n).bind fun x =>
        (simulates_operand h).bind fun ty => .pure n (x, ty)
      rwa [bind_assoc] at hsite
    have hagrees := hparts.before.agrees_bracketed (by decide) hopening
      (Nat.lt_of_succ_lt hus) hr
    rw [hread]
    generalize (do Reader.skipBlanks; f [.blank] : Reader Expr) = op at hagrees ⊢
    simp only [bind_assoc, pure_bind] at hagrees
    exact hagrees
  declines us _ hnot := declines_bracketed fun l hl hopening =>
    absurd ((isMetBy_opening _).2 hopening) (Bool.not_eq_true _ ▸ hnot l hl)
  refuses us _ hskip hnot := by
    have htake : Reader.takeNext .opening [] us = .error ⟨skip us, [.blank, .opening]⟩ :=
      Reader.takeNext_of_not_met (hskip.symm ▸ hnot)
    rw [hskip] at htake
    exact Reader.bind_of_error htake
  skips ts := by
    have hread (us : List Lexeme) : Reader.takeNext .opening [] us =
        Reader.take [.opening] [.blank] (skip us) := rfl
    rw [Reader.binder, Reader.bind_run, Reader.bind_run, hread, hread, Reader.skip_skip]
  closing := rfl
  nodup := by decide

end Operands

theorem simulates_group {α : Type} {p : Peg α} {q : Reader α} {first : Expectation}
    (h : ItemsAgree n p q first.isMetBy [first]) :
    Simulates n (do blanks; bracketed (separated p)) (Reader.group first q) := by
  have hgroup := h.simulates_separated.bracketed h.nodup
  simp only [bind_assoc, pure_bind] at hgroup
  exact hgroup

/-! ## What follows a keyword -/

theorem simulates_content (h : ExpressionsAgree n e f) {k : Keyword}
    (hk : k ∈ Keyword.compounds) :
    SimulatesBefore n (furtherOperands k) (afterKeyword e k)
      (content (do Reader.skipBlanks; f [.blank]) k) := by
  have hop := simulates_operand h
  have hitems := h.items
  have hbinders := items_binder h
  generalize (do Reader.skipBlanks; f [.blank] : Reader Expr) = op at hop hitems hbinders ⊢
  cases k with
  | opener o => exact (((Reader.mem_compounds_iff _).1 hk).1 (by cases o <;> decide)).elim
  | const c => exact (((Reader.mem_compounds_iff _).1 hk).2 (by cases c <;> decide)).elim
  | todo => exact (((Reader.mem_compounds_iff _).1 hk).2 (by decide)).elim
  | unary o => exact (hop.bind fun _ => .pure n _).before
  | binary o => exact (hop.bind fun _ => hop.bind fun _ => .pure n _).before
  | ternary o => exact (hop.bind fun _ => hop.bind fun _ => hop.bind fun _ => .pure n _).before
  | quaternary o =>
    exact (hop.bind fun _ => hop.bind fun _ => hop.bind fun _ => hop.bind fun _ =>
      .pure n _).before
  | indVec =>
    exact (hop.bind fun _ => hop.bind fun _ => hop.bind fun _ => hop.bind fun _ =>
      hop.bind fun _ => .pure n _).before
  | arrow =>
    have harrow := hop.bindBefore fun domain => hitems.simulates_separated.map fun rest =>
      (Expr.arrow · domain rest)
    simp only [bind_assoc, pure_bind] at harrow
    exact harrow
  | quant q =>
    have hquant := (simulates_group hbinders).bind fun binders => hop.bind fun body =>
      .pure n (Expr.quant · q binders body)
    rw [bind_assoc] at hquant
    exact hquant.before
  | lambda =>
    have hlambda := (simulates_group (items_site n)).bind fun sites => hop.bind fun body =>
      .pure n (Expr.lambda · sites body)
    rw [bind_assoc] at hlambda
    exact hlambda.before
  | quote =>
    have hatom : Simulates n (do blanks; test .nameOrKeyword)
        (Reader.takeNext .nameOrKeyword []) :=
      simulates_takeNext n nofun
    have hquote := hatom.bind fun a => .pure n (Expr.quote · a.text)
    rw [bind_assoc, Reader.takeNext, bind_assoc] at hquote
    exact hquote.before

/-! ## Brackets -/

theorem nodup_compounds : Keyword.compounds.Nodup := by decide

theorem nodup_furtherOperands (k : Keyword) :
    (Expectation.blank :: furtherOperands k ++ [Expectation.closing]).Nodup := by
  have hnone : (Expectation.blank :: [] ++ [Expectation.closing]).Nodup := by decide
  cases k with
  | arrow => decide
  | _ => exact hnone

/-- An application, where no keyword comes. -/
theorem agrees_application (h : ExpressionsAgree n e f) (hts : ts.length < n)
    (hr : r.At ts (.blank :: Keyword.compounds.map .keyword ++ others))
    (hnodup : (Expectation.blank :: Keyword.compounds.map .keyword ++ others ++ firsts).Nodup) :
    AgreesBefore firsts ts (application e ts r) (Reader.application f others ts) := by
  have hitems := h.items
  have hfunction := h.agrees hts hr hnodup
  unfold Reader.application
  generalize (do Reader.skipBlanks; f [.blank] : Reader Expr) = op at hitems ⊢
  refine hfunction.bindBefore fun function rest r' hrest hr' => ?_
  have harguments := (hitems.simulates_separated.map fun arguments =>
    (Expr.apply · function arguments)) (hrest.length_le.trans_lt hts) hr'
  simp only [bind_assoc, pure_bind] at harguments
  exact harguments.mono hrest

/-- What stands between the brackets of an expression agrees with what the reader reads there,
up to the closing bracket. -/
theorem agrees_compound (h : ExpressionsAgree n e f) (hts : ts.length < n)
    (hskip : skip ts = ts) (hr : r.At ts (.blank :: others))
    (hnodup : (Expectation.blank :: Keyword.compounds.map .keyword ++ others ++ firsts).Nodup) :
    ∃ (q : Reader (Span → Expr)) (further : List Expectation) (rest : List Lexeme),
      (Expectation.blank :: further ++ [Expectation.closing]).Nodup ∧
      AgreesBefore further ts (compound e ts r) (q rest) ∧
      ∀ start, Reader.compound f start others ts = (do
        let make ← q
        let stop ← Reader.close further
        return make ⟨start, stop⟩ : Reader Expr) rest := by
  rcases Reader.keyword_or_not ts with ⟨l, us, k, rfl, hl, hk⟩ | hnot
  · have hus := Nat.lt_of_succ_lt hts
    have hcontent (tested : List Expectation) := simulates_content h hk hus
      ((hr.recordAll tested).later (Nat.lt_succ_self us.length))
    obtain ⟨tested, hrun⟩ := firstOf_keywords_run hl hk nodup_compounds
      fun tested _ => (hcontent tested).length_le
    refine ⟨content (do Reader.skipBlanks; f [.blank]) k, furtherOperands k, us, ?_, ?_,
      fun start => Reader.compound_keyword hl hk us⟩
    · exact nodup_furtherOperands k
    · have hstarts : ∀ l' ∈ (l :: us).head?, startsExpression l'.token = false := by
        rintro _ ⟨⟩
        rw [hl]
        exact Reader.startsExpression_of_not_mem_atoms ((Reader.mem_compounds_iff k).1 hk).2
      have happlication : FailsBefore (l :: us).length (application e) (l :: us) :=
        (h.declines hts hstarts).failsBefore.bind _
      exact ((hrun ▸ hcontent tested).orElse happlication (Nat.lt_succ_self _)).mono
        (List.suffix_cons l us)
  · refine ⟨Reader.application f others, firsts, ts, by decide, ?_,
      fun start => Reader.compound_application hskip hnot⟩
    have hat := hr.recordAll (Keyword.compounds.map .keyword)
    rw [compound, orElse_of_declines (declines_keywords hnot)]
    refine agrees_application h hts (hat.congr fun π => ?_) hnodup
    simp only [List.cons_append, List.mem_cons, List.mem_append]
    exact or_congr_right or_comm

/-! ## Spans -/

/-- The expression that is made, with the span of the lexemes that were taken for it. -/
def spanTaken (all : List Lexeme) (x : Except Refusal ((Span → Expr) × List Lexeme)) :
    Except Refusal (Expr × List Lexeme) :=
  x.map fun (make, rest) => (make (spanOf (all.take (all.length - rest.length))), rest)

theorem spanned_run (p : Peg (Span → Expr)) (ts : List Lexeme) (r : Refusal) :
    spanned p ts r = match p ts r with
      | (some (make, rest), r') =>
        (some (make (spanOf (ts.take (ts.length - rest.length))), rest), r')
      | (none, r') => (none, r') := by
  have hspanned : spanned p ts r = (p >>= fun make => do
      let rest ← get
      return make (spanOf (ts.take (ts.length - rest.length))) : Peg Expr) ts r := rfl
  rw [hspanned, bind_run]
  rcases p ts r with ⟨_ | ⟨make, rest⟩, r'⟩ <;> rfl

theorem Agrees.spanned {p : Peg (Span → Expr)}
    {x : Except Refusal ((Span → Expr) × List Lexeme)} (h : Agrees us (p ts r) x) :
    Agrees us (spanned p ts r) (spanTaken ts x) := by
  rw [spanned_run]
  generalize p ts r = o at h ⊢
  cases h with
  | matched hrest hr => exact .matched hrest hr
  | failed hrest hr => exact .failed hrest hr

theorem spanOf_append (l bracket : Lexeme) (used rest : List Lexeme) :
    spanOf ((l :: (used ++ bracket :: rest)).take
      ((l :: (used ++ bracket :: rest)).length - rest.length)) = ⟨l.start, bracket.stop⟩ := by
  have htake : (l :: (used ++ bracket :: rest)).take
      ((l :: (used ++ bracket :: rest)).length - rest.length) = l :: (used ++ [bracket]) := by
    have hsplit : l :: (used ++ bracket :: rest) = (l :: (used ++ [bracket])) ++ rest := by simp
    rw [hsplit, List.length_append, Nat.add_sub_cancel, List.take_left]
  rw [htake]
  simp [spanOf, List.getLastD_eq_getLast?]

/-- The span of an expression in brackets goes from the opening to the closing one. -/
theorem spanTaken_close {q : Reader (Span → Expr)} {further : List Expectation}
    {rest : List Lexeme} (hq : ∀ make left, q rest = .ok (make, left) → left <:+ us) :
    (do
      let make ← q
      let stop ← Reader.close further
      return make ⟨l.start, stop⟩ : Reader Expr) rest =
    spanTaken (l :: us) ((do
      let make ← q
      let _ ← Reader.close further
      return make : Reader (Span → Expr)) rest) := by
  rw [Reader.bind_run, Reader.bind_run]
  cases hread : q rest with
  | error refusal => rfl
  | ok x =>
    obtain ⟨make, left⟩ := x
    have hleft := hq make left hread
    show (Reader.close further >>= fun stop => Pure.pure (make ⟨l.start, stop⟩) : Reader Expr)
      left = spanTaken (l :: us) ((Reader.close further >>= fun _ => Pure.pure make :
        Reader (Span → Expr)) left)
    rw [Reader.bind_run, Reader.bind_run]
    cases hclose : Reader.close further left with
    | error refusal => rfl
    | ok y =>
      obtain ⟨stop, rest'⟩ := y
      obtain ⟨b, bracket, -, -, rfl, rfl⟩ := Reader.close_eq_ok_iff.1 hclose
      obtain ⟨used, rfl⟩ := hleft
      have hspan := spanOf_append l bracket (used ++ b) rest'
      rw [List.append_assoc] at hspan
      show Except.ok (make ⟨l.start, bracket.stop⟩, rest') = Except.ok (make (spanOf _), rest')
      rw [hspan]

/-! ## Expressions -/

/-- The alternatives for an expression. -/
theorem expression_succ (depth : Nat) : expression (depth + 1) = spanned (
    bracketed (compound (expression depth)) <|>
    firstOf (Keyword.atoms.map (keyed (expression depth))) <|>
    (do let a ← quoted; return (.quote · a)) <|>
    (do let n ← number; return (.number · n)) <|>
    (do let lexeme ← test .name; return (.var · lexeme.text))) := rfl

theorem Declines.spanned {p : Peg (Span → Expr)} (h : Declines p ts tested) :
    Declines (spanned p) ts tested := by
  intro r
  rw [spanned_run, h r]

theorem declines_quoted (h : ∀ l ∈ ts.head?, Expectation.tick.isMetBy l.token = false) :
    Declines (do let a ← quoted; return (.quote · a) : Peg (Span → Expr)) ts [.tick] :=
  ((declines_test h).bind _).bind _

theorem declines_number (h : ∀ l ∈ ts.head?, Expectation.number.isMetBy l.token = false) :
    Declines (do let n ← number; return (.number · n) : Peg (Span → Expr)) ts [.number] :=
  ((declines_test h).bind _).bind _

theorem declines_name (h : ∀ l ∈ ts.head?, Expectation.name.isMetBy l.token = false) :
    Declines (do let lexeme ← test .name; return (.var · lexeme.text) : Peg (Span → Expr)) ts
      [.name] :=
  (declines_test h).bind _

theorem not_met_of_eq {token : Token} (hl : l.token = token) {π : Expectation}
    (h : π.isMetBy token = false) (us : List Lexeme) :
    ∀ l' ∈ (l :: us).head?, π.isMetBy l'.token = false := by
  rintro _ ⟨⟩
  rw [hl, h]

theorem ne_keyword_of_eq {token : Token} (hl : l.token = token) (h : ∀ k, token ≠ .keyword k)
    (keywords : List Keyword) (us : List Lexeme) :
    ∀ l' ∈ (l :: us).head?, ∀ k ∈ keywords, l'.token ≠ .keyword k := by
  rintro _ ⟨⟩ k -
  rw [hl]
  exact h k

theorem spanTaken_one (l : Lexeme) (us : List Lexeme) (make : Span → Expr) :
    spanTaken (l :: us) (.ok (make, us)) = .ok (make l.span, us) := by
  have htake : (l :: us).take ((l :: us).length - us.length) = [l] := by
    rw [List.length_cons, Nat.add_sub_cancel_left]
    rfl
  show Except.ok (make (spanOf _), us) = _
  rw [htake]
  rfl

/-- No other alternative than the first one starts with an opening bracket. -/
theorem failsBefore_alternatives (e : Peg Expr) (hl : l.token = .opening) (us : List Lexeme) :
    FailsBefore (l :: us).length (
      firstOf (Keyword.atoms.map (keyed e)) <|>
      (do let a ← quoted; return (.quote · a)) <|>
      (do let n ← number; return (.number · n)) <|>
      (do let lexeme ← test .name; return (.var · lexeme.text)) : Peg (Span → Expr))
        (l :: us) :=
  ((declines_keywords (ne_keyword_of_eq hl nofun _ us)).orElse
    ((declines_quoted (not_met_of_eq hl rfl us)).orElse
    ((declines_number (not_met_of_eq hl rfl us)).orElse
    (declines_name (not_met_of_eq hl rfl us))))).failsBefore

/-- An expression in brackets. Other expectations could have come after the opening one. -/
theorem agrees_opening {depth : Nat} (h : ExpressionsAgree n (expression depth) f)
    (hl : l.token = .opening) (hus : us.length < n) (hr : r.Ready others us)
    (hnodup : (Expectation.blank :: Keyword.compounds.map .keyword ++ others ++ firsts).Nodup) :
    Agrees us (expression (depth + 1) (l :: us) r) (Reader.compound f l.start others us) := by
  have hsuffix : skip us <:+ us := List.dropWhile_suffix _
  obtain ⟨q, further, rest, hnodup', hagrees, hread⟩ :=
    agrees_compound h (hsuffix.length_le.trans_lt hus) (Reader.skip_skip us) hr hnodup
  have hclosed := (hagrees.close hnodup').mono hsuffix
  have hrun : bracketed (compound (expression depth)) (l :: us) r =
      (do let a ← compound (expression depth); blanks; let _ ← test .closing; return a :
        Peg (Span → Expr)) (skip us) (r.record (skip us) .blank) := by
    rw [bracketed_run hl, bind_assoc, bind_of_some (blanks_run us r)]
  rw [← hrun] at hclosed
  have hothers := failsBefore_alternatives (expression depth) hl us
  rw [Reader.compound_skip, hread, spanTaken_close fun make left hmake =>
    (hmake ▸ hagrees).suffix_of_ok.trans hsuffix]
  exact (hclosed.orElse hothers (Nat.lt_succ_self _)).spanned

/-- A quoted name or keyword. -/
theorem agrees_quoted (hl : l.token = .tick) (hr : r.At (l :: us) tested) :
    Agrees us ((do let a ← quoted; return (.quote · a) : Peg (Span → Expr)) (l :: us) r)
      ((do let a ← Reader.quoted []; return (.quote · a.text) : Reader (Span → Expr)) us) := by
  have hquoted : Agrees us (test .nameOrKeyword us r) (Reader.quoted [] us) :=
    agrees_take (hr.later (Nat.lt_succ_self _)) (by decide)
  have hrun : (do let a ← quoted; return (.quote · a) : Peg (Span → Expr)) (l :: us) r =
      (do let a ← test .nameOrKeyword; return (.quote · a.text) : Peg (Span → Expr)) us r := by
    simp only [quoted, bind_assoc, pure_bind]
    exact bind_of_some (test_of_met (by rw [hl]; rfl) us r)
  rw [hrun]
  exact hquoted.bind fun _ _ _ hrest hr' => .matched hrest hr'

theorem spanTaken_quoted (l : Lexeme) (us : List Lexeme) :
    spanTaken (l :: us)
      ((do let a ← Reader.quoted []; return (.quote · a.text) : Reader (Span → Expr)) us) =
    (do let a ← Reader.quoted []; return .quote ⟨l.start, a.stop⟩ a.text : Reader Expr) us := by
  cases hread : Reader.quoted [] us with
  | error refusal => rw [Reader.bind_of_error hread, Reader.bind_of_error hread]; rfl
  | ok x =>
    obtain ⟨a, rest⟩ := x
    obtain ⟨rfl, -⟩ := Reader.quoted_eq_ok_iff.1 hread
    rw [Reader.bind_of_ok hread, Reader.bind_of_ok hread]
    show Except.ok (Expr.quote (spanOf _) a.text, rest) = _
    rw [← List.nil_append (a :: rest), spanOf_append]
    rfl

theorem agrees_number (hl : l.token = .number) (hr : r.At (l :: us) tested) :
    Agrees us ((do let n ← number; return (.number · n) : Peg (Span → Expr)) (l :: us) r)
      ((do let n ← Reader.number l; return (.number · n) : Reader (Span → Expr)) us) := by
  have hat := hr.later (Nat.lt_succ_self us.length)
  have hnumber : Agrees us (number (l :: us) r) (Reader.number l us) := by
    rw [number, bind_of_some (test_of_met (by rw [hl]; rfl) us r), Reader.number]
    split
    · exact .matched (List.suffix_refl us) hat
    · exact .failed (List.suffix_refl us)
        ((hat.record .smallNumber).same (List.nodup_singleton _) fun _ => Iff.rfl)
  exact hnumber.bind fun _ _ _ hrest hr' => .matched hrest hr'

theorem spanTaken_number (l : Lexeme) (us : List Lexeme) :
    spanTaken (l :: us)
      ((do let n ← Reader.number l; return (.number · n) : Reader (Span → Expr)) us) =
    (do let n ← Reader.number l; return .number l.span n : Reader Expr) us := by
  cases hread : Reader.number l us with
  | error refusal => rw [Reader.bind_of_error hread, Reader.bind_of_error hread]; rfl
  | ok x =>
    obtain ⟨n, rest⟩ := x
    obtain ⟨-, rfl⟩ := Reader.number_eq_ok_iff.1 hread
    rw [Reader.bind_of_ok hread, Reader.bind_of_ok hread]
    exact spanTaken_one l us _

theorem agrees_name (hl : l.token = .name) (hr : r.At (l :: us) tested) :
    Agrees us ((do let lexeme ← test .name; return (.var · lexeme.text) : Peg (Span → Expr))
      (l :: us) r) (.ok ((.var · l.text), us)) := by
  rw [bind_of_some (test_of_met (by rw [hl]; rfl) us r)]
  exact .matched (List.suffix_refl us) (hr.later (Nat.lt_succ_self _))

theorem nodup_atoms : Keyword.atoms.Nodup := by decide

/-- A keyword that is an expression by itself. -/
theorem agrees_atom (e : Peg Expr) {k : Keyword} {make : Span → Expr}
    (hl : l.token = .keyword k) (hk : k ∈ Keyword.atoms)
    (hmake : afterKeyword e k = return make) (hr : r.At (l :: us) tested) :
    Agrees us (firstOf (Keyword.atoms.map (keyed e)) (l :: us) r) (.ok (make, us)) := by
  obtain ⟨tested', hrun⟩ : ∃ tested', firstOf (Keyword.atoms.map (keyed e)) (l :: us) r =
      afterKeyword e k us (r.recordAll (l :: us) tested') :=
    firstOf_keywords_run hl hk nodup_atoms fun _ _ h => by rw [hmake] at h; cases h
  rw [hrun, hmake]
  exact .matched (List.suffix_refl us) ((hr.recordAll tested').later (Nat.lt_succ_self _))

theorem ne_opening_of_not_starts (h : ∀ l ∈ ts.head?, startsExpression l.token = false) :
    ∀ l ∈ ts.head?, l.token ≠ .opening := fun l hl hopening => by
  have hstarts := h l hl
  rw [hopening] at hstarts
  cases hstarts

/-- The parsing expressions of expressions agree with the readers, within bounds on the
nesting. -/
theorem expressionsAgree {depth depth' : Nat} (hd : n ≤ depth) (hd' : n ≤ depth') :
    ExpressionsAgree n (expression depth) (Reader.expression depth') := by
  induction n generalizing depth depth' with
  | zero =>
    exact ⟨fun _ _ _ _ _ _ h => absurd h (Nat.not_lt_zero _),
      fun _ h => absurd h (Nat.not_lt_zero _), fun _ _ h => absurd h (Nat.not_lt_zero _)⟩
  | succ n ih =>
    obtain ⟨depth, rfl⟩ : ∃ d, depth = d + 1 := ⟨depth - 1, by omega⟩
    obtain ⟨depth', rfl⟩ : ∃ d, depth' = d + 1 := ⟨depth' - 1, by omega⟩
    have hinner := ih (Nat.le_of_succ_le_succ hd) (Nat.le_of_succ_le_succ hd')
    refine ⟨fun l us r tested others hl hus hr => ?_, fun us hus hnot => ?_,
      fun us others hus hnot => ?_⟩
    · have hbracketed (h : l.token ≠ .opening) :
          Declines (bracketed (compound (expression depth))) (l :: us) [.opening] :=
        declines_bracketed fun l' hl' => by cases hl'; exact h
      have hatoms (h : ∀ k, l.token ≠ .keyword k) :
          Declines (firstOf (Keyword.atoms.map (keyed (expression depth)))) (l :: us)
            (Keyword.atoms.map .keyword) :=
        declines_keywords fun l' hl' k _ => by cases hl'; exact h k
      rw [Reader.expression, Reader.bind_of_ok (Reader.take_eq_ok_iff.2 ⟨rfl, hl⟩)]
      cases htoken : l.token with
      | blank | closing =>
        rw [htoken] at hl
        cases hl
      | opening =>
        exact agrees_opening hinner htoken (Nat.lt_of_succ_lt_succ hus)
          (hr.later (Nat.lt_succ_self _)).ready (by decide)
      | keyword k =>
        have hothers := ((declines_quoted (not_met_of_eq htoken rfl us)).orElse
          ((declines_number (not_met_of_eq htoken rfl us)).orElse
          (declines_name (not_met_of_eq htoken rfl us)))).failsBefore
        have hspanned {make : Span → Expr} (hk : k ∈ Keyword.atoms)
            (hmake : afterKeyword (expression depth) k = return make) :=
          (((agrees_atom (expression depth) htoken hk hmake (hr.recordAll [.opening])).orElse
            hothers (Nat.lt_succ_self _)).after (hbracketed (htoken ▸ nofun))).spanned
        simp only [spanTaken_one] at hspanned
        rw [htoken] at hl
        rcases (Reader.startsExpression_keyword k).1 hl with ⟨c, rfl⟩ | rfl
        · exact hspanned (by cases c <;> decide) rfl
        · exact hspanned (by decide) rfl
      | tick =>
        have hothers := ((declines_number (not_met_of_eq htoken rfl us)).orElse
          (declines_name (not_met_of_eq htoken rfl us))).failsBefore
        have hquoted := agrees_quoted htoken
          ((hr.recordAll [.opening]).recordAll (Keyword.atoms.map .keyword))
        have hspanned := (((hquoted.orElse hothers (Nat.lt_succ_self _)).after
          (hatoms (htoken ▸ nofun))).after
          (hbracketed (htoken ▸ nofun))).spanned
        rw [spanTaken_quoted] at hspanned
        exact hspanned
      | number =>
        have hothers := (declines_name (not_met_of_eq htoken rfl us)).failsBefore
        have hnumber := agrees_number htoken
          (((hr.recordAll [.opening]).recordAll (Keyword.atoms.map .keyword)).recordAll [.tick])
        have hspanned := ((((hnumber.orElse hothers (Nat.lt_succ_self _)).after
          (declines_quoted (not_met_of_eq htoken rfl us))).after
          (hatoms (htoken ▸ nofun))).after
          (hbracketed (htoken ▸ nofun))).spanned
        rw [spanTaken_number] at hspanned
        exact hspanned
      | name =>
        have hat :=
          (((hr.recordAll [.opening]).recordAll (Keyword.atoms.map .keyword)).recordAll
            [.tick]).recordAll [.number]
        have hspanned := (((((agrees_name htoken hat).after
          (declines_number (not_met_of_eq htoken rfl us))).after
          (declines_quoted (not_met_of_eq htoken rfl us))).after
          (hatoms (htoken ▸ nofun))).after
          (hbracketed (htoken ▸ nofun))).spanned
        rw [spanTaken_one] at hspanned
        exact hspanned
    · rw [expression_succ]
      have hall : ∀ π ∈ firsts, ∀ l ∈ us.head?, π.isMetBy l.token = false := fun π hπ l hl => by
        have hnone := hnot l hl
        rw [startsExpression, List.any_eq_false] at hnone
        exact Bool.not_eq_true _ ▸ hnone π hπ
      have hatoms : ∀ l ∈ us.head?, ∀ k ∈ Keyword.atoms, l.token ≠ .keyword k := by
        intro l hl k hk h
        have hnone := hall (.keyword k) (by simp [firsts, hk]) l hl
        rw [h, Expectation.isMetBy] at hnone
        simp at hnone
      exact ((declines_bracketed (ne_opening_of_not_starts hnot)).orElse
        ((declines_keywords hatoms).orElse
        ((declines_quoted (hall _ (by decide))).orElse
        ((declines_number (hall _ (by decide))).orElse
        (declines_name (hall _ (by decide))))))).spanned
    · refine Reader.bind_of_error ?_
      cases us with
      | nil => rfl
      | cons l us => exact if_neg (by rw [Bool.not_eq_true]; exact hnot l rfl)

/-! ## Top-level forms -/

theorem FailsBefore.spanned {m : Nat} {p : Peg (Span → Expr)} (h : FailsBefore m p ts) :
    FailsBefore m (spanned p) ts := by
  intro r hr
  rw [spanned_run, h r hr]

/-- No expression in brackets starts with the keyword of a top-level form. -/
theorem failsBefore_expression {depth : Nat} (h : ExpressionsAgree n (expression depth) f)
    (hl : l.token = .opening) (hus : us.length < n) {k : Lexeme} {o : Opener}
    (hk : k ∈ (skip us).head?) (htoken : k.token = .keyword (.opener o)) :
    FailsBefore (skip us).length (expression (depth + 1)) (l :: us) := by
  have hlen : (skip us).length ≤ us.length := (List.dropWhile_suffix _).length_le
  have hstarts : ∀ k ∈ (skip us).head?, startsExpression k.token = false := fun k' hk' => by
    cases Option.mem_unique hk hk'
    rw [htoken]
    exact Reader.startsExpression_of_not_mem_atoms (by cases o <;> decide)
  have hkeywords : ∀ k ∈ (skip us).head?, ∀ k' ∈ Keyword.compounds, k.token ≠ .keyword k' := by
    intro k' hk' keyword hkeyword h
    cases Option.mem_unique hk hk'
    cases htoken.symm.trans h
    exact ((Reader.mem_compounds_iff _).1 hkeyword).1 (by cases o <;> decide)
  have hcompound : FailsBefore (skip us).length (compound (expression depth)) (skip us) :=
    ((declines_keywords hkeywords).orElse
      ((h.declines (hlen.trans_lt hus) hstarts).bind _)).failsBefore
  exact ((failsBefore_bracketed hl hcompound).orElse
    ((failsBefore_alternatives _ hl us).mono (Nat.le_succ_of_le hlen))).spanned

/-- What is read after the keyword of a top-level form and before its closing bracket. -/
def openerContent (operand : Reader Expr) : Opener → Reader Form
  | .claim => do
    let x ← Reader.site
    let ty ← operand
    return .claim x ty
  | .define => do
    let x ← Reader.site
    let term ← operand
    return .define x term
  | .checkSame => do
    let ty ← operand
    let left ← operand
    let right ← operand
    return .checkSame ty left right

theorem simulates_opener (h : ExpressionsAgree n e f) (o : Opener) :
    Simulates n (afterOpener e o) (openerContent (do Reader.skipBlanks; f [.blank]) o) := by
  have hop := simulates_operand h
  cases o with
  | claim =>
    have hclaim := (simulates_site n).bind fun x => hop.bind fun ty => .pure n (Form.claim x ty)
    rwa [bind_assoc] at hclaim
  | define =>
    have hdefine := (simulates_site n).bind fun x => hop.bind fun t => .pure n (Form.define x t)
    rwa [bind_assoc] at hdefine
  | checkSame => exact hop.bind fun _ => hop.bind fun _ => hop.bind fun _ => .pure n _

section Forms

variable {depth : Nat} {o : Opener} {k : Lexeme} {ws : List Lexeme}

theorem bracketedForm_opener (hskip : skip us = k :: ws) (hk : k.token = .keyword (.opener o))
    (depth start : Nat) : Reader.bracketedForm depth start us = (do
      let form ← openerContent (do Reader.skipBlanks; Reader.expression depth [.blank]) o
      let _ ← Reader.close []
      return form : Reader Form) ws := by
  rw [Reader.bracketedForm, Reader.skipBlanks_peek, hskip, List.head?_cons, Option.map_some, hk]
  cases o <;>
  · simp only [openerContent, bind_assoc, pure_bind]
    rfl

theorem bracketedForm_expression
    (h : ∀ k ∈ (skip us).head?, ∀ o, k.token ≠ .keyword (.opener o)) (depth start : Nat) :
    Reader.bracketedForm depth start us = (do
      return .expression (← Reader.compound (Reader.expression depth) start
        (Keyword.openers.map .keyword)) : Reader Form) us := by
  rw [Reader.bracketedForm, Reader.skipBlanks_peek, Reader.bind_run, Reader.compound_skip]
  generalize hpeek : (skip us).head?.map Lexeme.token = peeked
  split
  case h_4 => rfl
  all_goals
    obtain ⟨k, ws, hskip, hk⟩ := Reader.head_token hpeek
    rw [hskip] at h
    exact (h k rfl _ hk).elim

theorem opened_run_of_eq (e : Peg Expr) (hl : l.token = .opening) (hskip : skip us = k :: ws)
    (hk : k.token = .keyword (.opener o)) (r : Refusal) :
    opened e o (l :: us) r = (do
      let form ← afterOpener e o
      blanks
      let _ ← test .closing
      return form : Peg Form) ws (r.record (skip us) .blank) := by
  rw [opened, bracketed_run hl, bind_assoc, bind_of_some (blanks_run us r), bind_assoc, hskip,
    bind_of_some (test_of_met ((isMetBy_keyword _ _).2 hk) ws _)]

theorem declines_opener (e : Peg Expr) (h : ∀ k ∈ ts.head?, k.token ≠ .keyword (.opener o)) :
    Declines (do let _ ← test (.keyword (.opener o)); afterOpener e o) ts
      [.keyword (.opener o)] :=
  (declines_test fun k hk => by
    rw [← Bool.not_eq_true, isMetBy_keyword]
    exact h k hk).bind _

theorem opened_run_of_ne (e : Peg Expr) (hl : l.token = .opening)
    (h : ∀ k ∈ (skip us).head?, k.token ≠ .keyword (.opener o)) (r : Refusal) :
    opened e o (l :: us) r =
      (none, (r.record (skip us) .blank).record (skip us) (.keyword (.opener o))) := by
  rw [opened, bracketed_run hl, bind_assoc, bind_of_some (blanks_run us r),
    bind_of_none (declines_opener e h _)]
  rfl

theorem failsBefore_opened (e : Peg Expr) (hl : l.token = .opening)
    (h : ∀ k ∈ (skip us).head?, k.token ≠ .keyword (.opener o)) :
    FailsBefore (skip us).length (opened e o) (l :: us) :=
  failsBefore_bracketed hl (declines_opener e h).failsBefore

theorem ready_record (π : Expectation) (h : r.Ready others us) :
    ((r.record (skip us) .blank).record (skip us) π).Ready (π :: others) us := by
  have hat := Refusal.At.record h π
  rw [Refusal.Ready, hat.record_of_mem (List.mem_cons_of_mem _ List.mem_cons_self)]
  exact hat.congr fun σ => by simp only [List.mem_cons, or_left_comm]

/-- A form with the keyword of a top-level form. -/
theorem agrees_opened (h : ExpressionsAgree n e f) (hl : l.token = .opening)
    (hskip : skip us = k :: ws) (hk : k.token = .keyword (.opener o)) (hus : us.length < n)
    (hr : r.Ready others us) :
    Agrees ws (opened e o (l :: us) r) ((do
      let form ← openerContent (do Reader.skipBlanks; f [.blank]) o
      let _ ← Reader.close []
      return form : Reader Form) ws) := by
  have hlen : (skip us).length ≤ us.length := (List.dropWhile_suffix _).length_le
  rw [Refusal.Ready] at hr
  rw [opened_run_of_eq e hl hskip hk]
  rw [hskip, List.length_cons] at hlen
  rw [hskip] at hr ⊢
  exact (simulates_opener h o).before.close (by decide) (by omega)
    (hr.later (Nat.lt_succ_self ws.length))

theorem opener_or_not (us : List Lexeme) :
    (∃ k ws o, us = k :: ws ∧ k.token = .keyword (.opener o)) ∨
      ∀ k ∈ us.head?, ∀ o, k.token ≠ .keyword (.opener o) := by
  by_cases h : ∃ k ∈ us.head?, ∃ o, k.token = .keyword (.opener o)
  · obtain ⟨k, hk, o, htoken⟩ := h
    obtain ⟨ws, rfl⟩ := List.head?_eq_some_iff.1 hk
    exact .inl ⟨k, ws, o, rfl, htoken⟩
  · exact .inr fun k hk o htoken => h ⟨k, hk, o, htoken⟩

theorem agrees_form_opening {depth' : Nat} (hd : n ≤ depth) (hd' : n + 1 ≤ depth')
    (hl : l.token = .opening) (hus : us.length < n) (hr : r.At us []) :
    Agrees us (topLevel (expression (depth + 1)) (l :: us) r)
      (Reader.bracketedForm depth' l.start us) := by
  have hinner := expressionsAgree hd (Nat.le_of_succ_le hd')
  have hwhole := expressionsAgree (Nat.succ_le_succ hd) hd'
  rcases opener_or_not (skip us) with ⟨k, ws, o, hskip, hk⟩ | hnot
  · have hws : ws <:+ us := (List.suffix_cons k ws).trans (hskip ▸ List.dropWhile_suffix _)
    have hlt : ws.length < (skip us).length := by rw [hskip]; exact Nat.lt_succ_self _
    have hhead : k ∈ (skip us).head? := by rw [hskip]; rfl
    have hopened {r : Refusal} {others : List Expectation} (hr : r.Ready others us) :=
      agrees_opened hwhole hl hskip hk (Nat.lt_succ_of_lt hus) hr
    have hexpression : FailsBefore (skip us).length
        (do return .expression (← expression (depth + 1)) : Peg Form) (l :: us) :=
      (failsBefore_expression hinner hl hus hhead hk).bind _
    have hne {o' : Opener} (h : o ≠ o') :
        ∀ k ∈ (skip us).head?, k.token ≠ .keyword (.opener o') := fun k' hk' h' => by
      cases Option.mem_unique hhead hk'
      exact h (Keyword.opener.inj (Token.keyword.inj (hk.symm.trans h')))
    have hfails {o' : Opener} (h : o ≠ o') :=
      failsBefore_opened (expression (depth + 1)) hl (hne h)
    rw [bracketedForm_opener hskip hk]
    refine Agrees.mono ?_ hws
    cases o with
    | claim =>
      exact (hopened hr.ready).orElse
        ((hfails (by decide)).orElse ((hfails (by decide)).orElse hexpression)) hlt
    | define =>
      rw [topLevel, orElse_run, opened_run_of_ne _ hl (hne (by decide))]
      exact (hopened (ready_record _ hr.ready)).orElse
        ((hfails (by decide)).orElse hexpression) hlt
    | checkSame =>
      rw [topLevel, orElse_run, opened_run_of_ne _ hl (hne (by decide))]
      dsimp only
      rw [orElse_run, opened_run_of_ne _ hl (hne (by decide))]
      exact (hopened (ready_record _ (ready_record _ hr.ready))).orElse hexpression hlt
  · have hready : Refusal.Ready (Keyword.openers.map .keyword) us _ :=
      (ready_record (.keyword (.opener .checkSame)) <|
        ready_record (.keyword (.opener .define)) <|
          ready_record (.keyword (.opener .claim)) hr.ready).congr fun _ =>
            (List.reverse_perm (Keyword.openers.map Expectation.keyword)).mem_iff
    have hexpression := agrees_opening hinner hl hus hready (by decide)
    have hne (o : Opener) : ∀ k ∈ (skip us).head?, k.token ≠ .keyword (.opener o) :=
      fun k hk => hnot k hk o
    rw [bracketedForm_expression hnot, topLevel, orElse_run, opened_run_of_ne _ hl (hne .claim)]
    dsimp only
    rw [orElse_run, opened_run_of_ne _ hl (hne .define)]
    dsimp only
    rw [orElse_run, opened_run_of_ne _ hl (hne .checkSame)]
    exact hexpression.bind fun _ _ _ hrest hr' => .matched hrest hr'

theorem declines_topLevel (h : ExpressionsAgree n e f) (hts : ts.length < n)
    (hnot : ∀ l ∈ ts.head?, startsExpression l.token = false) :
    Declines (topLevel e) ts ([.opening] ++ ([.opening] ++ ([.opening] ++ firsts))) := by
  have hopening := ne_opening_of_not_starts hnot
  exact (declines_bracketed hopening).orElse ((declines_bracketed hopening).orElse
    ((declines_bracketed hopening).orElse ((h.declines hts hnot).bind _)))

theorem agrees_form {depth' : Nat} (hd : n ≤ depth) (hd' : n + 1 ≤ depth')
    (hl : startsExpression l.token = true) (hus : us.length < n) (hr : r.At (l :: us) tested) :
    Agrees us (topLevel (expression (depth + 1)) (l :: us) r)
      (Reader.form depth' (l :: us)) := by
  by_cases hopening : l.token = .opening
  · rw [Reader.form_eq_bracketedForm hopening]
    exact agrees_form_opening hd hd' hopening hus (hr.later (Nat.lt_succ_self _))
  · have hdeclines (o : Opener) :
        Declines (opened (expression (depth + 1)) o) (l :: us) [.opening] :=
      declines_bracketed fun l' hl' => by cases hl'; exact hopening
    have hexpression := (expressionsAgree (Nat.succ_le_succ hd) hd').started
      [.blank, .endOfText] hl (Nat.succ_lt_succ hus)
      (((hr.recordAll [.opening]).recordAll [.opening]).recordAll [.opening])
    have hform := hexpression.bind (f := fun e => (return .expression e : Peg Form))
      (g := fun e => (return .expression e : Reader Form))
      fun _ _ _ hrest hr' => .matched hrest hr'
    rw [Reader.form_eq_expression hopening]
    exact ((hform.after (hdeclines .checkSame)).after (hdeclines .define)).after
      (hdeclines .claim)

end Forms

end PieChecker.Surface.Peg
