import PieChecker.Proofs.Parsing.Continuations

set_option autoImplicit false

/-!
# What the readers expect

The readers of expressions and programs are explained by the languages of the rules that they
read. The proof goes along the recursion of the readers: what is still expected is handed down
to them as the language after the part that they read, and what else could stand at the first
lexeme as the patterns of other words.
-/

namespace PieChecker.Surface

namespace Grammar

open Nonterminal

section Expressions

variable {M N : Language Expectation} {l : Lexeme} {π : Expectation}

/-- An expression and then something else, by its first pattern. -/
theorem expression_mul (M : Language Expectation) : expression.words * M =
    pattern .opening *
        (blanks.words * (compound.words * (blanks.words * (pattern .closing * M)))) +
      keyed Keyword.atoms (fun k => wordsAfter k * M) +
      (pattern .tick * (pattern .nameOrKeyword * M) +
        (pattern .number * M + pattern .name * M)) := by
  rw [words_expression]
  simp only [add_mul, mul_assoc, keyed_mul]

theorem mem_next_expression [Productive M] : π ∈ next (expression.words * M) ↔
    π ∈ Reader.firsts := by
  rw [expression_mul]
  simp only [mem_next_add, mem_next_pattern_mul, mem_next_keyed fun _ => inferInstance,
    Reader.firsts, List.cons_append, List.mem_cons, List.mem_append, List.mem_map,
    List.not_mem_nil, or_false, or_assoc, eq_comm]

theorem afterOne_pattern_mul_of_not (h : π.isMetBy l.token = false) :
    afterOne (pattern π * M) l = 0 := by
  refine afterOne_eq_zero ?_
  rintro σ ⟨w, hw⟩
  rwa [(cons_mem_pattern_mul.1 hw).1]

theorem afterOne_keyed_of_not {keywords : List Keyword} {rest : Keyword → Language Expectation}
    (h : ∀ k ∈ keywords, l.token ≠ .keyword k) : afterOne (keyed keywords rest) l = 0 := by
  refine afterOne_eq_zero ?_
  rintro σ ⟨w, hw⟩
  obtain ⟨k, hk, rfl, -⟩ := cons_mem_keyed.1 hw
  have hne := h k hk
  cases ht : l.token with
  | keyword k' =>
    rw [ht] at hne
    simp only [Expectation.isMetBy, decide_eq_false_iff_not]
    exact fun hkk => hne (by rw [hkk])
  | _ => rfl

theorem afterOne_expression_of_opening (hl : l.token = .opening) :
    afterOne (expression.words * M) l =
      blanks.words * (compound.words * (blanks.words * (pattern .closing * M))) := by
  have hfits : Fits l .opening := fits_of_isMetBy (by rw [hl]; rfl) nofun
  rw [expression_mul]
  simp [afterOne_add, afterOne_pattern_mul hfits, afterOne_keyed_of_not,
    afterOne_pattern_mul_of_not, hl, Expectation.isMetBy]

theorem afterOne_expression_of_atom {k : Keyword} (hl : l.token = .keyword k)
    (hk : k ∈ Keyword.atoms) :
    afterOne (expression.words * M) l = wordsAfter k * M := by
  rw [expression_mul]
  simp [afterOne_add, afterOne_keyed hl hk, afterOne_pattern_mul_of_not, hl,
    Expectation.isMetBy]

theorem afterOne_expression_of_tick (hl : l.token = .tick) :
    afterOne (expression.words * M) l = pattern .nameOrKeyword * M := by
  have hfits : Fits l .tick := fits_of_isMetBy (by rw [hl]; rfl) nofun
  rw [expression_mul]
  simp [afterOne_add, afterOne_pattern_mul hfits, afterOne_keyed_of_not,
    afterOne_pattern_mul_of_not, hl, Expectation.isMetBy]

theorem afterOne_expression_of_number (hl : l.token = .number)
    (hsmall : decimal l.text < 2 ^ 64) :
    afterOne (expression.words * M) l = M := by
  have hfits : Fits l .number := ⟨by rw [hl]; rfl, fun _ => hsmall⟩
  rw [expression_mul]
  simp [afterOne_add, afterOne_pattern_mul hfits, afterOne_keyed_of_not,
    afterOne_pattern_mul_of_not, hl, Expectation.isMetBy]

theorem afterOne_expression_of_name (hl : l.token = .name) :
    afterOne (expression.words * M) l = M := by
  have hfits : Fits l .name := fits_of_isMetBy (by rw [hl]; rfl) nofun
  rw [expression_mul]
  simp [afterOne_add, afterOne_pattern_mul hfits, afterOne_keyed_of_not,
    afterOne_pattern_mul_of_not, hl, Expectation.isMetBy]

theorem afterOne_expression_of_not [Productive M]
    (h : Reader.startsExpression l.token = false) :
    afterOne (expression.words * M) l = 0 := by
  refine afterOne_eq_zero fun π hπ => ?_
  rw [← Bool.not_eq_true]
  intro hmet
  exact Bool.false_ne_true (h.symm.trans
    (List.any_eq_true.2 ⟨π, mem_next_expression.1 hπ, hmet⟩))

theorem mem_next_compound [Productive M] (π : Expectation) :
    π ∈ next (compound.words * M) ↔ π ∈ Keyword.compounds.map Expectation.keyword ∨
    π ∈ Reader.firsts := by
  rw [words_compound, add_mul, keyed_mul, mul_assoc]
  simp only [mem_next_add, mem_next_keyed fun _ => inferInstance, mem_next_expression,
    List.mem_map, eq_comm]

end Expressions

end Grammar

namespace Reader

open Grammar Nonterminal

section Compounds

variable {K M N : Language Expectation} {α β : Type}
  {expression : List Expectation → Reader Expr} {operand : Reader Expr} {n start : Nat}
  {ts : List Lexeme} {others : List Expectation}

/-- What a rule derives is never empty, so a reader for it makes progress. -/
theorem length_lt_of_sound {r : Reader α} {Item : List Lexeme → α → Prop}
    {starts : Token → Bool} (hs : Sound r (Spaced Item)) (hbegins : Begins starts Item)
    (us : List Lexeme) (a : α) (rest : List Lexeme) (h : r us = .ok (a, rest)) :
    rest.length < us.length := by
  obtain ⟨_, rfl, ⟨-, hitem⟩⟩ := hs h
  obtain ⟨l, used, rfl, -⟩ := hbegins hitem
  simp only [List.length_append, List.length_cons]
  omega

theorem readsItems_site : ReadsItems n site .site Expectation.name.isMetBy [.name] where
  follows M _ := by
    rw [words_site]
    exact follows_site
  progress := length_lt_of_sound site_sound bindingSite_begins
  mem_next_iff M _ π := by rw [words_site, mem_next_pattern_mul, List.mem_singleton]
  starts_iff t := by simp
  proper := by decide

/-- The reader reads expressions where they may come, and knows what else may come there. -/
def ReadsExpressions (n : Nat) (expression : List Expectation → Reader Expr) : Prop :=
  ∀ ⦃K M : Language Expectation⦄ [Productive M] ⦃others : List Expectation⦄ ⦃ts : List Lexeme⦄,
    ts.length < n → Offers K (Nonterminal.expression.words * M) others ts →
    Explained K M ts (expression others ts)

theorem blank_not_mem_next_expression [Productive M] :
    .blank ∉ next (Nonterminal.expression.words * M) := by
  rw [mem_next_expression]
  decide

theorem readsItems_operand (he : ReadsExpressions n expression)
    (hs : Sound (expression [.blank]) Expression) :
    ReadsItems n (do skipBlanks; expression [.blank]) .expression startsExpression firsts where
  follows M _ := by
    intro ts hts
    have hskip : (skip ts).length < n := (List.dropWhile_suffix _).length_le.trans_lt hts
    exact .skipped blank_not_mem_next_expression
      (he hskip (.blanks (ne_blank_of_head?_skip ts)))
  progress := length_lt_of_sound (spaced_sound hs) expression_begins
  mem_next_iff M _ π := mem_next_expression
  starts_iff t := by rw [startsExpression, List.any_eq_true]
  proper := by decide

theorem readsItems_binder (hop : ReadsItems n operand .expression startsExpression firsts)
    (hs : Sound operand (Spaced Expression)) :
    ReadsItems n (binder operand) .typedBinder Expectation.opening.isMetBy [.opening] where
  follows M _ := by
    rw [words_typedBinder]
    simp only [mul_assoc]
    exact (follows_takeNext (by decide)).bind fun _ => follows_site.bind fun _ =>
      (hop.follows _).bind fun _ => follows_close.bind fun _ => .pure _ _
  progress := length_lt_of_sound (binder_sound hs) typedBinder_begins
  mem_next_iff M _ π := by
    rw [words_typedBinder, mul_assoc, mem_next_pattern_mul, List.mem_singleton]
  starts_iff t := by simp
  proper := by decide

/-- One operand, where more of them may be needed. -/
theorem follows_operand_bind (hop : ReadsItems n operand .expression startsExpression firsts)
    [Productive M] {count : Nat} {f : Expr → Reader β}
    (hf : ∀ a, Follows n (f a) (operandWords count * M) N) :
    Follows n (operand >>= f) (operandWords (count + 1) * M) N := by
  rw [operandWords_succ, mul_assoc, mul_assoc]
  exact (hop.follows _).bind hf

/-- No more operands are needed. -/
theorem follows_last {p : Reader α} {f : α → Reader β} (hp : Follows n p K M)
    (hf : ∀ a, Follows n (f a) M N) :
    Follows n (p >>= f) (operandWords 0 * K) N := by
  rw [operandWords_zero, one_mul]
  exact hp.bind hf

theorem token_ne_keyword {l : Lexeme} {keyword : Keyword} (hl : l.token = .keyword keyword)
    {keywords : List Keyword} (h : keyword ∉ keywords) :
    ∀ k ∈ keywords, l.token ≠ .keyword k := by
  rintro k hk hlk
  rw [hl, Token.keyword.injEq] at hlk
  exact h (hlk ▸ hk)

/-- What follows a keyword, up to the closing bracket. -/
theorem follows_content (hop : ReadsItems n operand .expression startsExpression firsts)
    (hsop : Sound operand (Spaced Expression)) [Productive M] {k : Keyword}
    (hk : k ∈ Keyword.compounds) :
    Follows n (do
        let make ← content operand k
        let stop ← close (furtherOperands k)
        return make ⟨start, stop⟩ : Reader Expr)
      (wordsAfter k * (blanks.words * (pattern .closing * M))) M := by
  cases k with
  | opener o => exact (((mem_compounds_iff _).1 hk).1 (by cases o <;> decide)).elim
  | const c => exact (((mem_compounds_iff _).1 hk).2 (by cases c <;> decide)).elim
  | todo => exact (((mem_compounds_iff _).1 hk).2 (by decide)).elim
  | unary o =>
    simp only [content, furtherOperands, bind_assoc, pure_bind]
    exact follows_operand_bind hop fun _ => follows_last follows_close fun _ => .pure _ _
  | binary o =>
    simp only [content, furtherOperands, bind_assoc, pure_bind]
    exact follows_operand_bind hop fun _ => follows_operand_bind hop fun _ =>
      follows_last follows_close fun _ => .pure _ _
  | ternary o =>
    simp only [content, furtherOperands, bind_assoc, pure_bind]
    exact follows_operand_bind hop fun _ => follows_operand_bind hop fun _ =>
      follows_operand_bind hop fun _ => follows_last follows_close fun _ => .pure _ _
  | quaternary o =>
    simp only [content, furtherOperands, bind_assoc, pure_bind]
    exact follows_operand_bind hop fun _ => follows_operand_bind hop fun _ =>
      follows_operand_bind hop fun _ => follows_operand_bind hop fun _ =>
      follows_last follows_close fun _ => .pure _ _
  | indVec =>
    simp only [content, furtherOperands, bind_assoc, pure_bind]
    exact follows_operand_bind hop fun _ => follows_operand_bind hop fun _ =>
      follows_operand_bind hop fun _ => follows_operand_bind hop fun _ =>
      follows_operand_bind hop fun _ => follows_last follows_close fun _ => .pure _ _
  | arrow =>
    simp only [content, furtherOperands, bind_assoc, pure_bind]
    rw [wordsAfter_arrow]
    simp only [mul_assoc]
    exact (hop.follows _).bind fun _ => hop.follows_listed fun _ _ _ => _
  | quant q =>
    simp only [content, furtherOperands, bind_assoc, pure_bind]
    rw [wordsAfter_quant, groupWords]
    simp only [mul_assoc]
    exact (readsItems_binder hop hsop).follows_group.bind fun _ =>
      follows_operand_bind hop fun _ =>
      follows_last follows_close fun _ => .pure _ _
  | lambda =>
    simp only [content, furtherOperands, bind_assoc, pure_bind]
    rw [wordsAfter_lambda, groupWords]
    simp only [mul_assoc]
    exact readsItems_site.follows_group.bind fun _ => follows_operand_bind hop fun _ =>
      follows_last follows_close fun _ => .pure _ _
  | quote =>
    simp only [content, furtherOperands, bind_assoc, pure_bind]
    rw [wordsAfter_quote, mul_assoc]
    have hquoted : Follows n (do
          let atom ← takeNext .nameOrKeyword []
          let stop ← close []
          return .quote ⟨start, stop⟩ atom.text : Reader Expr)
        (blanks.words * (pattern .nameOrKeyword * (blanks.words * (pattern .closing * M)))) M :=
      (follows_takeNext (by decide)).bind fun _ => follows_close.bind fun _ => .pure _ _
    exact fun ts hts => hquoted ts hts

/-- A keyword was read, and what it needs comes next. -/
theorem explained_keyword [Productive M] {k : Lexeme} {keyword : Keyword}
    (hk : k.token = .keyword keyword) (hmem : keyword ∈ Keyword.compounds)
    (hN : afterOne N k = 0) {read : Except Refusal (α × List Lexeme)}
    (h : Explained (wordsAfter keyword * (blanks.words * (pattern .closing * M))) M ts read) :
    Explained (blanks.words *
        (Nonterminal.compound.words * (blanks.words * (pattern .closing * M)) + N))
      M (k :: ts) read := by
  have hne : k.token ≠ .blank := by simp [hk]
  have hstarts : startsExpression k.token = false := by
    rw [hk]
    exact startsExpression_of_not_mem_atoms ((mem_compounds_iff keyword).1 hmem).2
  have hone : afterOne (blanks.words *
        (Nonterminal.compound.words * (blanks.words * (pattern .closing * M)) + N)) k =
      wordsAfter keyword * (blanks.words * (pattern .closing * M)) := by
    rw [afterOne_blanks_mul_of_ne hne, afterOne_add, hN, add_zero, words_compound, add_mul,
      keyed_mul, mul_assoc, afterOne_add, afterOne_keyed hk hmem,
      afterOne_expression_of_not hstarts, add_zero]
  exact .cons (hone ▸ h)

theorem not_met_keyword {k : Keyword} (h : ∀ l ∈ ts.head?, l.token ≠ .keyword k) :
    ¬ Met ts (.keyword k) := by
  cases ts with
  | nil => nofun
  | cons l ts => exact fun hmet => h l rfl ((isMetBy_keyword k _).1 hmet)

/-- Where no keyword comes, an application may come after an opening bracket. -/
theorem offers_application [Productive M] (hne : ∀ l ∈ ts.head?, l.token ≠ .blank)
    (hcompounds : ∀ l ∈ ts.head?, ∀ k ∈ Keyword.compounds, l.token ≠ .keyword k)
    (hN : ∀ π, π ∈ next N ↔ π ∈ others) (hothers : ∀ π ∈ others, ¬ Met ts π) :
    Offers (blanks.words *
        (Nonterminal.compound.words * (blanks.words * (pattern .closing * M)) + N))
      (Nonterminal.expression.words * (blanks.words *
        ((separated .expression).words * (blanks.words * (pattern .closing * M)))))
      (.blank :: Keyword.compounds.map .keyword ++ others) ts := by
  have hsplit : Nonterminal.compound.words * (blanks.words * (pattern .closing * M)) + N =
      Nonterminal.expression.words * (blanks.words *
        ((separated .expression).words * (blanks.words * (pattern .closing * M)))) +
      (keyed Keyword.compounds
        (fun k => wordsAfter k * (blanks.words * (pattern .closing * M))) + N) := by
    rw [words_compound, add_mul, keyed_mul, mul_assoc, mul_assoc, ← add_assoc,
      add_comm (keyed _ _)]
  have hothers_eq : .blank :: Keyword.compounds.map .keyword ++ others =
      [.blank] ++ (Keyword.compounds.map .keyword ++ others) := rfl
  rw [hsplit, hothers_eq]
  refine (Offers.blanks hne).add (fun π => ?_) fun π hπ => ?_
  · simp only [mem_next_add, mem_next_keyed fun _ => inferInstance, hN, List.mem_append,
      List.mem_map, eq_comm]
  · rcases List.mem_append.1 hπ with hπ | hπ
    · obtain ⟨k, hk, rfl⟩ := List.mem_map.1 hπ
      exact not_met_keyword fun l hl => hcompounds l hl k hk
    · exact hothers π hπ

/-- After an opening bracket come blanks, and then a keyword with what it needs or an
application. -/
theorem explained_compound (hs : ∀ others, Sound (expression others) Expression)
    (he : ReadsExpressions n expression) [Productive M] (hts : ts.length < n)
    (hN : ∀ π, π ∈ next N ↔ π ∈ others) (hblank : .blank ∉ others)
    (hothers : ∀ π ∈ others, ¬ Met (skip ts) π) :
    Explained (blanks.words *
        (Nonterminal.compound.words * (blanks.words * (pattern .closing * M)) + N))
      M ts (compound expression start others ts) := by
  have hop := readsItems_operand he (hs [.blank])
  have hskip : (skip ts).length < n := (List.dropWhile_suffix _).length_le.trans_lt hts
  have hne := ne_blank_of_head?_skip ts
  rw [compound_skip]
  refine .skipped ?_ ?_
  · rw [mem_next_add, mem_next_compound, hN]
    rintro (h | h)
    · revert h
      decide
    · exact hblank h
  have hskipped := skip_skip ts
  generalize skip ts = us at hskip hne hothers hskipped ⊢
  rcases keyword_or_not us with ⟨l, us, k, rfl, hl, hk⟩ | hnot
  · have hzero : afterOne N l = 0 :=
      afterOne_eq_zero fun π hπ => Bool.not_eq_true _ ▸ hothers π ((hN π).1 hπ)
    rw [compound_keyword hl hk]
    exact explained_keyword hl hk hzero
      (follows_content hop (spaced_sound (hs [.blank])) hk us (Nat.lt_of_succ_lt hskip))
  · rw [compound_application hskipped hnot]
    unfold application
    generalize (do skipBlanks; expression [.blank] : Reader Expr) = operand at hop ⊢
    simp only [bind_assoc, pure_bind]
    exact (he hskip (offers_application hne hnot hN hothers)).bind fun _ rest _ hrest =>
      hop.follows_listed (fun _ _ _ => _) rest (hrest.trans_lt hskip)

end Compounds

/-! ## Expressions -/

theorem number_eq_error {l : Lexeme} (h : 2 ^ 64 ≤ decimal l.text) (ts : List Lexeme) :
    ∃ refusal, number l ts = .error refusal := by
  cases hnumber : number l ts with
  | error refusal => exact ⟨refusal, rfl⟩
  | ok r => exact absurd (number_eq_ok_iff.1 hnumber).1.2 (Nat.not_lt_of_le h)

theorem endOfText_not_mem_firsts : .endOfText ∉ firsts := by decide

theorem mem_atoms_of_startsExpression {k : Keyword} (h : startsExpression (.keyword k) = true) :
    k ∈ Keyword.atoms := by
  rcases (startsExpression_keyword k).1 h with ⟨c, rfl⟩ | rfl
  · cases c <;> decide
  · decide

theorem readsExpressions (depth : Nat) : ReadsExpressions depth (expression depth) := by
  induction depth with
  | zero => exact fun _ _ _ _ _ hts => absurd hts (Nat.not_lt_zero _)
  | succ depth ih =>
    intro K M _ others ts hts h
    have hnext : ∀ π, π ∈ next K ↔ π ∈ others ++ firsts := fun π => by
      rw [h.mem_next_iff, mem_next_expression, List.mem_append]
    have hrefused (hfirsts : ∀ π ∈ firsts, ¬ Met ts π) :
        Explained K M ts (.error ⟨ts, others ++ firsts⟩ :
          Except Refusal (Expr × List Lexeme)) := by
      refine .refused (List.nil_append ts).symm (by simp [firsts]) hnext fun π hπ => ?_
      rcases List.mem_append.1 hπ with hπ | hπ
      · exact h.not_met π hπ
      · exact hfirsts π hπ
    unfold expression
    cases ts with
    | nil =>
      have htake : take firsts others [] = .error ⟨[], others ++ firsts⟩ := rfl
      rw [bind_of_error htake]
      exact hrefused fun π hπ hend => endOfText_not_mem_firsts ((show π = _ from hend) ▸ hπ)
    | cons l us =>
      by_cases hl : startsExpression l.token = true
      · rw [bind_of_ok (take_eq_ok_iff.2 ⟨rfl, hl⟩)]
        have hus : us.length < depth := Nat.lt_of_succ_lt_succ hts
        by_cases hlarge : l.token = .number ∧ 2 ^ 64 ≤ decimal l.text
        · obtain ⟨refusal, hnumber⟩ := number_eq_error hlarge.2 us
          rw [hlarge.1]
          dsimp only
          rw [bind_of_error hnumber]
          exact .oversized ⟨l, List.mem_cons_self, hlarge⟩
        refine .cons ?_
        rw [h.afterOne_eq l rfl]
        cases htoken : l.token with
        | blank | closing =>
          rw [htoken] at hl
          cases hl
        | opening =>
          rw [afterOne_expression_of_opening htoken,
            ← add_zero (Nonterminal.compound.words * _)]
          exact explained_compound (expression_sound depth) ih hus
            (by simp [mem_next_zero]) nofun nofun
        | keyword k =>
          rw [htoken] at hl
          rw [afterOne_expression_of_atom htoken (mem_atoms_of_startsExpression hl)]
          rcases (startsExpression_keyword k).1 hl with ⟨c, rfl⟩ | rfl
          · exact .ok (List.nil_append us).symm (one_mul M)
          · exact .ok (List.nil_append us).symm (one_mul M)
        | tick =>
          rw [afterOne_expression_of_tick htoken]
          have hquoted : Explained (pattern .nameOrKeyword * M) M us (quoted [] us) :=
            explained_take nofun nofun (.refl _ us)
          exact hquoted.bind fun _ rest _ _ => .ok (List.nil_append rest).symm rfl
        | number =>
          have hsmall : decimal l.text < 2 ^ 64 := Nat.lt_of_not_le fun h => hlarge ⟨htoken, h⟩
          dsimp only
          rw [bind_of_ok (number_eq_ok_iff.2 ⟨⟨rfl, hsmall⟩, rfl⟩),
            afterOne_expression_of_number htoken hsmall]
          exact .ok (List.nil_append us).symm rfl
        | name =>
          rw [afterOne_expression_of_name htoken]
          exact .ok (List.nil_append us).symm rfl
      · have htake : take firsts others (l :: us) = .error ⟨l :: us, others ++ firsts⟩ :=
          if_neg hl
        rw [bind_of_error htake]
        exact hrefused fun π hπ hmet => hl (List.any_eq_true.2 ⟨π, hπ, hmet⟩)

/-! ## Top-level forms -/

section Forms

variable {M : Language Expectation} {depth start n : Nat} {ts : List Lexeme}

/-- What may come after the opening bracket of a top-level form. -/
def formWords (M : Language Expectation) : Language Expectation :=
  blanks.words * (Nonterminal.compound.words * (blanks.words * (pattern .closing * M)) +
    keyed Keyword.openers fun k => wordsAfter k * (blanks.words * (pattern .closing * M)))

theorem afterOne_topLevel_of_opening {l : Lexeme} (hl : l.token = .opening) :
    afterOne (topLevel.words * M) l = formWords M := by
  have hfits : Fits l .opening := fits_of_isMetBy (by rw [hl]; rfl) nofun
  rw [words_topLevel, add_mul, afterOne_add, afterOne_expression_of_opening hl]
  simp only [mul_assoc, keyed_mul, afterOne_pattern_mul hfits]
  rw [formWords, mul_add, add_comm]

theorem afterOne_topLevel_of_ne {l : Lexeme} (hl : l.token ≠ .opening) :
    afterOne (topLevel.words * M) l = afterOne (Nonterminal.expression.words * M) l := by
  rw [words_topLevel, add_mul, mul_assoc, afterOne_add, afterOne_pattern_mul_of_not, zero_add]
  rw [← Bool.not_eq_true, isMetBy_opening]
  exact hl

theorem mem_next_topLevel [Productive M] {π : Expectation} : π ∈ next (topLevel.words * M) ↔
    π ∈ firsts := by
  rw [words_topLevel, add_mul, mul_assoc, mem_next_add, mem_next_expression,
    or_iff_right_iff_imp]
  rintro ⟨w, hw⟩
  obtain ⟨rfl, -⟩ := cons_mem_pattern_mul.1 hw
  decide

theorem mem_next_openers [Productive M] (π : Expectation) :
    π ∈ next (keyed Keyword.openers fun k =>
      wordsAfter k * (blanks.words * (pattern .closing * M))) ↔
      π ∈ Keyword.openers.map Expectation.keyword := by
  simp only [mem_next_keyed fun _ => inferInstance, List.mem_map, eq_comm]

/-- A keyword that opens a top-level form was read, and what it needs comes next. -/
theorem explained_opener {α : Type} [Productive M] {k : Lexeme} {opener : Opener}
    (hk : k.token = .keyword (.opener opener)) (hts : (k :: ts).length < n) {p : Reader α}
    (hp : Follows n p (wordsAfter (.opener opener) * (blanks.words * (pattern .closing * M)))
      M) :
    Explained (formWords M) M (k :: ts) ((do modify List.tail; p) (k :: ts)) := by
  have hne : k.token ≠ .blank := by simp [hk]
  have hstarts : startsExpression k.token = false := by
    rw [hk]
    exact startsExpression_of_not_mem_atoms (by cases opener <;> decide)
  have hcompounds : ∀ keyword ∈ Keyword.compounds, k.token ≠ .keyword keyword :=
    token_ne_keyword hk (by cases opener <;> decide)
  have hone : afterOne (formWords M) k =
      wordsAfter (.opener opener) * (blanks.words * (pattern .closing * M)) := by
    rw [formWords, afterOne_blanks_mul_of_ne hne, afterOne_add, words_compound, add_mul,
      keyed_mul, mul_assoc, afterOne_add, afterOne_keyed_of_not hcompounds,
      afterOne_expression_of_not hstarts, add_zero, zero_add,
      afterOne_keyed hk (by cases opener <;> decide)]
  exact .cons (hone ▸ hp ts (Nat.lt_of_succ_lt hts))

theorem explained_bracketedForm [Productive M] (hts : ts.length < depth) :
    Explained (formWords M) M ts (bracketedForm depth start ts) := by
  have hop := readsItems_operand (readsExpressions depth) (expression_sound depth [.blank])
  have hskip : (skip ts).length < depth := (List.dropWhile_suffix _).length_le.trans_lt hts
  have hne := ne_blank_of_head?_skip ts
  unfold bracketedForm
  rw [skipBlanks_peek]
  generalize (do skipBlanks; expression depth [.blank] : Reader Expr) = operand at hop ⊢
  refine .skipped ?_ ?_
  · rw [mem_next_add, mem_next_compound, mem_next_openers]
    decide
  rw [← formWords]
  generalize skip ts = us at hskip hne
  generalize hpeek : us.head?.map Lexeme.token = peeked
  split
  case h_1 =>
    obtain ⟨k, us, rfl, hk⟩ := head_token hpeek
    refine explained_opener hk hskip ?_
    rw [wordsAfter_claim, declarationWords, mul_assoc, mul_assoc]
    exact follows_site.bind fun _ => follows_operand_bind hop fun _ =>
      follows_last follows_close fun _ => .pure _ _
  case h_2 =>
    obtain ⟨k, us, rfl, hk⟩ := head_token hpeek
    refine explained_opener hk hskip ?_
    rw [wordsAfter_define, declarationWords, mul_assoc, mul_assoc]
    exact follows_site.bind fun _ => follows_operand_bind hop fun _ =>
      follows_last follows_close fun _ => .pure _ _
  case h_3 =>
    obtain ⟨k, us, rfl, hk⟩ := head_token hpeek
    refine explained_opener hk hskip ?_
    exact follows_operand_bind hop fun _ => follows_operand_bind hop fun _ =>
      follows_operand_bind hop fun _ =>
      follows_last follows_close fun _ => .pure _ _
  case h_4 hclaim hdefine hcheckSame =>
    have hskip' : skip us = us := by
      cases us with
      | nil => rfl
      | cons l us => exact skip_cons (hne l rfl) us
    have hcompound : Explained (formWords M) M us
        (compound (expression depth) start (Keyword.openers.map .keyword) us) := by
      refine explained_compound (expression_sound depth) (readsExpressions depth) hskip
        mem_next_openers (by decide) ?_
      rw [hskip']
      intro π hπ
      obtain ⟨k, hk, rfl⟩ := List.mem_map.1 hπ
      refine not_met_keyword fun l hl htoken => ?_
      obtain ⟨us, rfl⟩ := List.head?_eq_some_iff.1 hl
      rw [List.head?_cons, Option.map_some, htoken] at hpeek
      cases hk with
      | head => exact hclaim hpeek.symm
      | tail _ hk =>
        cases hk with
        | head => exact hdefine hpeek.symm
        | tail _ hk =>
          cases hk with
          | head => exact hcheckSame hpeek.symm
          | tail _ hk => cases hk
    exact hcompound.bind fun _ rest _ _ => .ok (List.nil_append rest).symm rfl

theorem Offers.expression {K : Language Expectation} [Productive M] {l : Lexeme}
    {others : List Expectation} (h : Offers K (topLevel.words * M) others (l :: ts))
    (hl : l.token ≠ .opening) :
    Offers K (Nonterminal.expression.words * M) others (l :: ts) where
  mem_next_iff π := by rw [h.mem_next_iff, mem_next_topLevel, mem_next_expression]
  afterOne_eq l' hl' := by
    obtain rfl : l = l' := Option.some.inj hl'
    rw [h.afterOne_eq l rfl, afterOne_topLevel_of_ne hl]
  not_met := h.not_met

/-- A top-level form is read where one may come, or the end of the text. -/
theorem explained_form {K : Language Expectation} [Productive M] {l : Lexeme}
    (hts : (l :: ts).length < depth)
    (h : Offers K (topLevel.words * M) [.blank, .endOfText] (l :: ts)) :
    Explained K M (l :: ts) (form depth (l :: ts)) := by
  by_cases hl : l.token = .opening
  · rw [form_eq_bracketedForm hl]
    refine .cons ?_
    rw [h.afterOne_eq l rfl, afterOne_topLevel_of_opening hl]
    exact explained_bracketedForm (Nat.lt_of_succ_lt hts)
  · rw [form_eq_expression hl]
    exact (readsExpressions depth hts (h.expression hl)).bind fun _ rest _ _ =>
      .ok (List.nil_append rest).symm rfl

/-- All that may come after a top-level form, up to the end of the text. -/
theorem explained_program (bound : Nat) (hts : ts.length < depth) :
    Explained (afterItem .topLevel (pattern .endOfText))
      (afterItem .topLevel (pattern .endOfText)) ts (program depth bound ts) := by
  induction bound generalizing ts with
  | zero => exact Follows.pure [] _ ts hts
  | succ bound ih =>
    have hskip : (skip ts).length < depth := (List.dropWhile_suffix _).length_le.trans_lt hts
    have hne := ne_blank_of_head?_skip ts
    have hend : ∀ π, π ∈ next (pattern .endOfText) ↔ π ∈ [Expectation.endOfText] := fun π => by
      rw [← mul_one (pattern _), mem_next_pattern_mul, List.mem_singleton]
    rw [program, skipBlanks_peek, afterItem_eq]
    refine .skipped ?_ ?_
    · rw [mem_next_add, hend, mem_next_topLevel]
      decide
    rw [← afterItem_eq]
    generalize skip ts = us at hskip hne
    cases us with
    | nil => exact Follows.pure [] _ [] hskip
    | cons l us =>
      have hoffers : Offers (afterItem .topLevel (pattern .endOfText))
          (topLevel.words * afterItem .topLevel (pattern .endOfText)) [.blank, .endOfText]
          (l :: us) := by
        nth_rewrite 1 [afterItem_eq]
        rw [add_comm]
        refine (Offers.blanks hne).add hend fun π hπ => ?_
        obtain rfl := List.mem_singleton.1 hπ
        intro hmet
        cases hmet
      exact (explained_form hskip hoffers).bind fun _ rest _ hrest =>
        (ih (hrest.trans_lt hskip)).bind fun _ rest _ _ => .ok (List.nil_append rest).symm rfl

theorem mem_next_end (π : Expectation) : π ∈ next (blanks.words * pattern .endOfText) ↔
    π ∈ [Expectation.blank, Expectation.endOfText] := by
  rw [mem_next_blanks_mul, ← mul_one (pattern _), mem_next_pattern_mul, List.mem_pair]

theorem explained_loneExpression (hts : ts.length < depth) :
    Explained
      (blanks.words * (Nonterminal.expression.words * (blanks.words * pattern .endOfText)))
      (blanks.words * pattern .endOfText) ts (loneExpression depth ts) := by
  have hop := readsItems_operand (readsExpressions depth) (expression_sound depth [.blank])
  rw [loneExpression, ← bind_assoc]
  refine (hop.follows (blanks.words * pattern .endOfText) ts hts).bind fun e rest _ hrest => ?_
  have hne := ne_blank_of_head?_skip rest
  rw [skipBlanks_peek]
  refine .skipped ?_ ?_
  · rw [← mul_one (pattern _), mem_next_pattern_mul]
    decide
  generalize skip rest = us at hne
  cases us with
  | nil => exact .ok (List.nil_append []).symm rfl
  | cons l us =>
    refine .refused (List.nil_append _).symm (List.cons_ne_nil _ _) mem_next_end
      fun π hπ hmet => ?_
    rcases List.mem_pair.1 hπ with rfl | rfl
    · exact hne l rfl ((isMetBy_blank _).1 hmet)
    · cases hmet

end Forms

end Reader

end PieChecker.Surface
