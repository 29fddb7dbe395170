import PieChecker.Proofs.Parsing.Explanations
import PieChecker.Proofs.Parsing.WholeTexts

set_option autoImplicit false

/-!
# Parse errors are exact

Where a text cannot be read on, its lexemes up to there can be completed to a sentence, with the
next one they cannot, and the error lists exactly the patterns that can come next. So the
furthest place at which parsing expressions have failed is the first one where the text is
wrong, and what was tested in vain there is all that could have come.
-/

namespace PieChecker.Surface

namespace Grammar

variable {n : Nonterminal} {ts read more : List Lexeme} {π : Expectation} {w : List Expectation}

/-- The lexemes are a sentence: they fit the patterns of a word of the rule, one by one. -/
def Nonterminal.Sentence (n : Nonterminal) (ts : List Lexeme) : Prop :=
  ∃ w ∈ n.words, List.Forall₂ Fits ts w

/-- The lexemes can be completed to a sentence. -/
def Nonterminal.Viable (n : Nonterminal) (ts : List Lexeme) : Prop :=
  ∃ more, n.Sentence (ts ++ more)

theorem sentence_iff : n.Sentence ts ↔ [] ∈ after n.words ts := by
  rw [mem_after]
  simp only [List.append_nil, Nonterminal.Sentence, and_comm]

/-- The expectations that lexemes can meet. -/
def isToken : Expectation → Bool
  | .smallNumber | .endOfText => false
  | _ => true

/-- A part of a rule that is no pattern, or a pattern that lexemes can meet. -/
def isProper : Item → Bool
  | .terminal π => isToken π
  | .nonterminal _ => true

theorem isProper_of_mem_alternatives {body : List Item} (h : body ∈ n.alternatives) :
    ∀ item ∈ body, isProper item = true := by
  have hall : n.alternatives.all (·.all isProper) = true := by
    cases n <;> rfl
  exact List.all_eq_true.1 (List.all_eq_true.1 hall body h)

mutual

theorem Derives.isToken : ∀ {item : Item} {w : List Expectation}, Derives item w →
    isProper item = true → ∀ π ∈ w, Grammar.isToken π = true
  | _, _, .terminal _, hitem, _, hσ => by rwa [List.mem_singleton.1 hσ]
  | _, _, .nonterminal hbody h, _, σ, hσ => h.isToken (isProper_of_mem_alternatives hbody) σ hσ

theorem DerivesAll.isToken : ∀ {body : List Item} {w : List Expectation}, DerivesAll body w →
    (∀ item ∈ body, isProper item = true) → ∀ π ∈ w, Grammar.isToken π = true
  | _, _, .nil, _, _, hσ => nomatch hσ
  | _, _, .cons h hs, hbody, σ, hσ =>
    have hbody := List.forall_mem_cons.1 hbody
    (List.mem_append.1 hσ).elim (h.isToken hbody.1 σ) (hs.isToken hbody.2 σ)

end

theorem isToken_of_mem_words (hw : w ∈ n.words) : ∀ π ∈ w, isToken π = true :=
  Derives.isToken hw rfl

theorem exists_fits (h : isToken π = true) : ∃ l, Fits l π := by
  cases π with
  | blank => exact ⟨⟨.blank, 0, ""⟩, rfl, nofun⟩
  | opening => exact ⟨⟨.opening, 0, ""⟩, rfl, nofun⟩
  | closing => exact ⟨⟨.closing, 0, ""⟩, rfl, nofun⟩
  | name => exact ⟨⟨.name, 0, ""⟩, rfl, nofun⟩
  | number => exact ⟨⟨.number, 0, ""⟩, rfl, fun _ => by decide⟩
  | tick => exact ⟨⟨.tick, 0, ""⟩, rfl, nofun⟩
  | keyword k => exact ⟨⟨.keyword k, 0, ""⟩, fits_keyword rfl⟩
  | nameOrKeyword => exact ⟨⟨.name, 0, ""⟩, rfl, nofun⟩
  | smallNumber | endOfText => cases h

theorem exists_forall₂_fits (h : ∀ π ∈ w, isToken π = true) : ∃ ts, List.Forall₂ Fits ts w := by
  induction w with
  | nil => exact ⟨[], .nil⟩
  | cons π w ih =>
    obtain ⟨hπ, hw⟩ := List.forall_mem_cons.1 h
    obtain ⟨l, hl⟩ := exists_fits hπ
    obtain ⟨ts, hts⟩ := ih hw
    exact ⟨l :: ts, .cons hl hts⟩

/-- Lexemes can be completed to a sentence exactly if something may come after them. -/
theorem viable_iff : n.Viable ts ↔ Productive (after n.words ts) := by
  constructor
  · rintro ⟨more, h⟩
    rw [sentence_iff, after_append, mem_after] at h
    obtain ⟨w, -, hw⟩ := h
    exact ⟨w ++ [], hw⟩
  · rintro ⟨w, hw⟩
    obtain ⟨ps, -, hps⟩ := mem_after.1 hw
    obtain ⟨more, hmore⟩ := exists_forall₂_fits fun π hπ =>
      isToken_of_mem_words hps π (List.mem_append_right ps hπ)
    refine ⟨more, sentence_iff.2 ?_⟩
    rw [after_append, mem_after]
    exact ⟨w, hmore, by rwa [List.append_nil]⟩

/-- What may come in a text that is to be a sentence and nothing more. -/
theorem cons_mem_after_end : π :: w ∈ after (n.words * pattern .endOfText) ts ↔
    (π = .endOfText ∧ w = [] ∧ n.Sentence ts) ∨ ∃ v, w = v ++ [.endOfText] ∧
    π :: v ∈ after n.words ts := by
  simp only [mem_after, Language.mem_mul, mem_pattern, exists_eq_left]
  constructor
  · rintro ⟨ps, hps, v, hv, heq⟩
    rcases List.eq_nil_or_concat w with rfl | ⟨w, σ, rfl⟩
    · obtain ⟨rfl, hend⟩ := List.append_inj' heq rfl
      obtain rfl : _ = π := List.head_eq_of_cons_eq hend
      exact .inl ⟨rfl, rfl, v, hv, hps⟩
    · rw [List.concat_eq_append, ← List.cons_append, ← List.append_assoc] at heq
      obtain ⟨rfl, hend⟩ := List.append_inj' heq rfl
      refine .inr ⟨w, ?_, ps, hps, hv⟩
      rw [List.concat_eq_append, hend]
  · rintro (⟨rfl, rfl, v, hv, hts⟩ | ⟨v, rfl, ps, hps, hv⟩)
    · exact ⟨v, hts, v, hv, rfl⟩
    · exact ⟨ps, hps, ps ++ π :: v, hv, by simp⟩

theorem isToken_of_mem_next (h : π ∈ next (after n.words ts)) : isToken π = true := by
  obtain ⟨w, hw⟩ := h
  obtain ⟨ps, -, hps⟩ := mem_after.1 hw
  exact isToken_of_mem_words hps π (by simp)

theorem endOfText_mem_next_iff : .endOfText ∈ next (after (n.words * pattern .endOfText) ts) ↔
    n.Sentence ts := by
  constructor
  · rintro ⟨w, hw⟩
    rcases cons_mem_after_end.1 hw with ⟨-, -, h⟩ | ⟨v, -, hv⟩
    · exact h
    · cases isToken_of_mem_next ⟨v, hv⟩
  · intro h
    exact ⟨[], cons_mem_after_end.2 (.inl ⟨rfl, rfl, h⟩)⟩

theorem mem_next_iff_of_ne (hπ : π ≠ .endOfText) :
    π ∈ next (after (n.words * pattern .endOfText) ts) ↔ π ∈ next (after n.words ts) := by
  constructor
  · rintro ⟨w, hw⟩
    rcases cons_mem_after_end.1 hw with ⟨hend, -⟩ | ⟨v, -, hv⟩
    · exact (hπ hend).elim
    · exact ⟨v, hv⟩
  · rintro ⟨v, hv⟩
    exact ⟨v ++ [.endOfText], cons_mem_after_end.2 (.inr ⟨v, rfl, hv⟩)⟩

/-- If lexemes and one more can be completed to a sentence, then that one fits a pattern that
can come next. -/
theorem exists_mem_next_of_viable {l : Lexeme} (h : n.Viable (ts ++ l :: more)) :
    ∃ π ∈ next (after (n.words * pattern .endOfText) ts), π.isMetBy l.token = true := by
  obtain ⟨w, hw⟩ := viable_iff.1 h
  rw [after_append, after_cons] at hw
  obtain ⟨ps, -, π, hl, hπ⟩ := mem_after.1 hw
  have hnext : π ∈ next (after n.words ts) := ⟨_, hπ⟩
  refine ⟨π, (mem_next_iff_of_ne ?_).2 hnext, hl.met⟩
  rintro rfl
  cases isToken_of_mem_next hnext

theorem viable_of_mem_next (h : π ∈ next (after (n.words * pattern .endOfText) ts)) :
    n.Viable ts := by
  by_cases hπ : π = .endOfText
  · rw [hπ, endOfText_mem_next_iff] at h
    exact ⟨[], by rwa [List.append_nil]⟩
  · obtain ⟨w, hw⟩ := (mem_next_iff_of_ne hπ).1 h
    exact viable_iff.2 ⟨_, hw⟩

theorem exists_fits_of_mem (h : List.Forall₂ Fits ts w) {l : Lexeme} (hl : l ∈ ts) :
    ∃ π, Fits l π := by
  induction h with
  | nil => cases hl
  | cons hπ _ ih =>
    rcases List.mem_cons.1 hl with rfl | hl
    · exact ⟨_, hπ⟩
    · exact ih hl

end Grammar

namespace Reader

open Grammar Nonterminal

variable {α : Type} {n : Nonterminal} {M : Language Expectation} {ts rest : List Lexeme}
  {expected : List Expectation}

theorem Explained.sentence_of_ok {a : α}
    (h : Explained (n.words * pattern .endOfText) M ts (.ok (a, []))) (hM : [.endOfText] ∈ M) :
    n.Sentence ts := by
  cases h with
  | ok hts hafter =>
    rw [List.append_nil] at hts
    rw [← hafter, ← hts] at hM
    exact endOfText_mem_next_iff.1 ⟨[], hM⟩

/-- What is no sentence, and up to where it could have been one: the longest beginning of the
lexemes that can be completed to a sentence is as long as the given number, and the given
patterns are those that can come next after it, with the end of the text if it is a sentence by
itself. -/
structure StopsAt (n : Nonterminal) (ts : List Lexeme) (p : Nat) (expected : List Expectation) :
    Prop where
  le_length : p ≤ ts.length
  viable : n.Viable (ts.take p)
  longest : ∀ q ≤ ts.length, n.Viable (ts.take q) → q ≤ p
  endOfText_mem_iff : .endOfText ∈ expected ↔ n.Sentence (ts.take p)
  mem_iff : ∀ π ≠ .endOfText, π ∈ expected ↔ π ∈ next (after n.words (ts.take p))

theorem Explained.not_sentence {refusal : Refusal}
    (h : Explained (n.words * pattern .endOfText) M ts
      (.error refusal : Except Refusal (α × List Lexeme))) :
    ¬ n.Sentence ts := by
  intro hsentence
  cases h with
  | @refused read rest expected hts hne hnext hstuck =>
    cases rest with
    | nil =>
      rw [List.append_nil] at hts
      have hend := (hnext .endOfText).1 (endOfText_mem_next_iff.2 (hts ▸ hsentence))
      exact hstuck .endOfText hend rfl
    | cons l rest =>
      have hviable : n.Viable (read ++ l :: rest) := ⟨[], by rwa [List.append_nil, ← hts]⟩
      obtain ⟨π, hπ, hmet⟩ := exists_mem_next_of_viable hviable
      exact hstuck π ((hnext π).1 hπ) hmet
  | oversized h =>
    obtain ⟨l, hl, hnumber, hlarge⟩ := h
    obtain ⟨w, -, hw⟩ := hsentence
    exact absurd ((exists_fits_of_mem hw hl).elim fun π hπ => hπ.small hnumber)
      (Nat.not_lt_of_le hlarge)

theorem Explained.stopsAt
    (h : Explained (n.words * pattern .endOfText) M ts
      (.error ⟨rest, expected⟩ : Except Refusal (α × List Lexeme)))
    (hsmall : ∀ l ∈ ts, l.token = .number → decimal l.text < 2 ^ 64) :
    ∃ p, rest = ts.drop p ∧ StopsAt n ts p expected := by
  cases h with
  | oversized h =>
    obtain ⟨l, hl, hnumber, hlarge⟩ := h
    exact absurd (hsmall l hl hnumber) (Nat.not_lt_of_le hlarge)
  | @refused read _ _ hts hne hnext hstuck =>
    subst hts
    refine ⟨read.length, List.drop_left.symm, ?_⟩
    have htake : (read ++ rest).take read.length = read := List.take_left
    constructor
    · rw [List.length_append]
      omega
    · rw [htake]
      obtain ⟨π, hπ⟩ := List.exists_mem_of_ne_nil expected hne
      exact viable_of_mem_next ((hnext π).2 hπ)
    · intro q hq hviable
      by_contra hlt
      cases rest with
      | nil => simp at hq; omega
      | cons l rest =>
        obtain ⟨k, rfl⟩ : ∃ k, q = read.length + (k + 1) := ⟨q - read.length - 1, by omega⟩
        rw [List.take_length_add_append, List.take_succ_cons] at hviable
        obtain ⟨π, hπ, hmet⟩ := exists_mem_next_of_viable hviable
        exact hstuck π ((hnext π).1 hπ) hmet
    · rw [htake, ← hnext, endOfText_mem_next_iff]
    · intro π hπ
      rw [htake, ← hnext, mem_next_iff_of_ne hπ]

end Reader

open Grammar Nonterminal Reader

theorem words_program_mul (L : Language Expectation) :
    program.words * L = afterItem .topLevel L := by
  rw [words_program, afterItem]
  simp only [add_mul, mul_assoc]

theorem words_loneExpression_mul (L : Language Expectation) :
    loneExpression.words * L = blanks.words * (expression.words * (blanks.words * L)) := by
  rw [words_loneExpression]
  simp only [mul_assoc]

theorem endOfText_mem_end : [.endOfText] ∈ blanks.words * pattern .endOfText := by
  rw [blanks_mul_eq]
  exact .inl rfl

theorem explained_parse (ts : List Lexeme) :
    Explained (program.words * pattern .endOfText) (program.words * pattern .endOfText) ts
      (Reader.program (ts.length + 1) (ts.length + 1) ts) := by
  rw [words_program_mul]
  exact explained_program _ (Nat.lt_succ_self _)

theorem explained_parseExpression (ts : List Lexeme) :
    Explained (loneExpression.words * pattern .endOfText) (blanks.words * pattern .endOfText) ts
      (Reader.loneExpression (ts.length + 1) ts) := by
  rw [words_loneExpression_mul]
  exact explained_loneExpression (Nat.lt_succ_self _)

/-- The grammar over patterns derives the same programs. -/
theorem sentence_program_iff (ts : List Lexeme) :
    program.Sentence ts ↔ ∃ forms, Program ts forms := by
  have h := explained_parse ts
  constructor
  · intro hsentence
    cases hread : Reader.program (ts.length + 1) (ts.length + 1) ts with
    | error refusal =>
      rw [hread] at h
      exact (h.not_sentence hsentence).elim
    | ok r =>
      refine ⟨r.1, (parseLexemes_eq_ok_iff 0 ts r.1).1 (readAll_eq_ok_iff.2 ⟨r.2, hread⟩)⟩
  · rintro ⟨forms, hprogram⟩
    obtain ⟨used, b, rfl, hs, hb⟩ := program_iff_series.1 hprogram
    have hlen := topLevel_begins.length_le hs
    rw [program_complete _ hs hb (by rw [List.length_append]; omega)
      (by rw [List.length_append]; omega)] at h
    refine h.sentence_of_ok ?_
    rw [words_program_mul]
    exact .inl endOfText_mem_end

theorem sentence_loneExpression_iff (ts : List Lexeme) : loneExpression.Sentence ts ↔
    ∃ e, LoneExpression ts e := by
  have h := explained_parseExpression ts
  constructor
  · intro hsentence
    cases hread : Reader.loneExpression (ts.length + 1) ts with
    | error refusal =>
      rw [hread] at h
      exact (h.not_sentence hsentence).elim
    | ok r => exact ⟨r.1, loneExpression_sound _ hread⟩
  · rintro ⟨e, he⟩
    rw [loneExpression_complete he (Nat.le_succ _)] at h
    exact h.sentence_of_ok endOfText_mem_end

/-- Where the lexeme at a position is, or else the end of a text of the given size. -/
def placeAt (size : Nat) (ts : List Lexeme) (p : Nat) : Span :=
  (ts[p]?.map Lexeme.span).getD ⟨size, size⟩

/-- A reader that is explained reports exact errors. -/
theorem readAll_error_exact {α : Type} {r : Reader α} {n : Nonterminal}
    {M : Language Expectation} {ts : List Lexeme}
    (h : Explained (n.words * pattern .endOfText) M ts (r ts))
    (hsmall : ∀ l ∈ ts, l.token = .number → decimal l.text < 2 ^ 64) {size : Nat}
    {e : ParseError} (herror : readAll r size ts = .error e) : ∃ p, e.span = placeAt size ts p ∧
    StopsAt n ts p e.expected := by
  unfold readAll at herror
  split at herror
  · cases herror
  case h_2 refusal hrefusal =>
    obtain ⟨rest, expected⟩ := refusal
    rw [hrefusal] at h
    obtain ⟨p, hrest, hstops⟩ := h.stopsAt hsmall
    cases herror
    refine ⟨p, ?_, hstops⟩
    dsimp only at hrest ⊢
    rw [placeAt, ← List.head?_drop, ← hrest]
    cases rest <;> rfl

/-- A text that has lexemes is only refused by the reader of these. -/
theorem read_eq_error {α : Type} {source : String} {ts : List Lexeme}
    (hlex : lex source = .ok ts) {f : List Lexeme → Except ParseError α} {err : ReadError}
    (h : (do (f (← (lex source).mapError ReadError.lex)).mapError ReadError.parse) =
      .error err) :
    ∃ e, err = .parse e ∧ f ts = .error e := by
  rw [hlex] at h
  have hread : (f ts).mapError ReadError.parse = .error err := h
  cases hf : f ts with
  | ok a =>
    rw [hf] at hread
    cases hread
  | error e =>
    rw [hf] at hread
    cases hread
    exact ⟨e, rfl, rfl⟩

theorem Reader.StopsAt.congr {n : Nonterminal} {ts : List Lexeme} {p : Nat}
    {expected expected' : List Expectation} (h : StopsAt n ts p expected)
    (hmem : ∀ π, π ∈ expected' ↔ π ∈ expected) : StopsAt n ts p expected' where
  le_length := h.le_length
  viable := h.viable
  longest := h.longest
  endOfText_mem_iff := (hmem _).trans h.endOfText_mem_iff
  mem_iff π hπ := (hmem π).trans (h.mem_iff π hπ)

/-- What has the same errors as a reader that is explained reports exact errors too. -/
theorem error_exact {α : Type} {x : Except ParseError α} {r : Reader α} {n : Nonterminal}
    {M : Language Expectation} {ts : List Lexeme} {size : Nat}
    (hsame : SameReading x (readAll r size ts))
    (h : Explained (n.words * pattern .endOfText) M ts (r ts))
    (hsmall : ∀ l ∈ ts, l.token = .number → decimal l.text < 2 ^ 64) {e : ParseError}
    (herror : x = .error e) : ∃ p, e.span = placeAt size ts p ∧ StopsAt n ts p e.expected := by
  obtain ⟨e', herror', hspan, hexpected⟩ := hsame.exists_error herror
  obtain ⟨p, hplace, hstops⟩ := readAll_error_exact h hsmall herror'
  exact ⟨p, hspan.trans hplace, hstops.congr fun π => hexpected.mem_iff⟩

/-- A text with lexemes that is not matched as a program, or as an expression, is refused at the
first lexeme that cannot follow those before it, or at its end, and what is expected is exactly
what can come there. The readers report the same place and the same expectations. The sentences
are those of the grammar. -/
theorem parse_errors_exact {source : String} {ts : List Lexeme} (hlex : lex source = .ok ts)
    (hsmall : ∀ l ∈ ts, l.token = .number → decimal l.text < 2 ^ 64) :
    (∀ e, Peg.parseLexemes source.utf8ByteSize ts = .error e →
      ∃ p, e.span = placeAt source.utf8ByteSize ts p ∧ StopsAt program ts p e.expected) ∧
    (∀ e, Peg.parseLexemesAsExpression source.utf8ByteSize ts = .error e →
      ∃ p, e.span = placeAt source.utf8ByteSize ts p ∧ StopsAt loneExpression ts p e.expected) ∧
    (∀ err, parse source = .error err → ∃ e e', err = .parse e ∧
      Peg.parseLexemes source.utf8ByteSize ts = .error e' ∧ e'.span = e.span ∧
      e'.expected.Perm e.expected) ∧
    (∀ err, parseExpression source = .error err → ∃ e e', err = .parse e ∧
      Peg.parseLexemesAsExpression source.utf8ByteSize ts = .error e' ∧ e'.span = e.span ∧
      e'.expected.Perm e.expected) ∧
    (∀ us, program.Sentence us ↔ ∃ forms, Program us forms) ∧
    ∀ us, loneExpression.Sentence us ↔ ∃ e, LoneExpression us e := by
  have hprogram := sameReading_parseLexemes source.utf8ByteSize ts
  have hexpression := sameReading_parseLexemesAsExpression source.utf8ByteSize ts
  refine ⟨fun e => error_exact hprogram (explained_parse ts) hsmall,
    fun e => error_exact hexpression (explained_parseExpression ts) hsmall,
    fun err h => ?_, fun err h => ?_, sentence_program_iff, sentence_loneExpression_iff⟩
  · obtain ⟨e, rfl, herror⟩ := read_eq_error hlex h
    obtain ⟨e', herror', hsame⟩ := hprogram.error_of_error herror
    exact ⟨e, e', rfl, herror', hsame⟩
  · obtain ⟨e, rfl, herror⟩ := read_eq_error hlex h
    obtain ⟨e', herror', hsame⟩ := hexpression.error_of_error herror
    exact ⟨e, e', rfl, herror', hsame⟩

/-- It can be decided whether a text is refused with a given error. -/
instance decidableEqError {α : Type} (x : Except ParseError α) (e : ParseError) :
    Decidable (x = .error e) :=
  match x with
  | .ok _ => isFalse nofun
  | .error e' => decidable_of_iff (e' = e) (by rw [Except.error.injEq])

/-- One operand too many: after five lexemes only a blank or the closing bracket can come. -/
theorem parse_errors_exact_add1 :
    let source := "(add1 zero zero)"
    let ts : List Lexeme := [⟨.opening, 0, "("⟩, ⟨.keyword (.unary .add1), 1, "add1"⟩,
      ⟨.blank, 5, " "⟩, ⟨.keyword (.const .zero), 6, "zero"⟩, ⟨.blank, 10, " "⟩,
      ⟨.keyword (.const .zero), 11, "zero"⟩, ⟨.closing, 15, ")"⟩]
    lex source = .ok ts ∧ (∀ l ∈ ts, l.token = .number → decimal l.text < 2 ^ 64) ∧
      Peg.parseLexemes source.utf8ByteSize ts = .error ⟨⟨11, 15⟩, [.closing, .blank]⟩ ∧
      parse source = .error (.parse ⟨⟨11, 15⟩, [.blank, .closing]⟩) ∧
      placeAt source.utf8ByteSize ts 5 = ⟨11, 15⟩ ∧
      StopsAt program ts 5 [.closing, .blank] := by
  intro source ts
  have hlex : lex source = .ok ts := by decide +kernel
  have hsmall : ∀ l ∈ ts, l.token = .number → decimal l.text < 2 ^ 64 := by decide
  have hmatch : Peg.parseLexemes source.utf8ByteSize ts =
      .error ⟨⟨11, 15⟩, [.closing, .blank]⟩ := by
    decide +kernel
  have hparse : parse source = .error (.parse ⟨⟨11, 15⟩, [.blank, .closing]⟩) := by
    rw [parse, hlex]
    rfl
  obtain ⟨p, hspan, hstops⟩ := (parse_errors_exact hlex hsmall).1 _ hmatch
  have hplaces : ∀ p ≤ 7, placeAt source.utf8ByteSize ts p = ⟨11, 15⟩ → p = 5 := by decide
  obtain rfl := hplaces p hstops.le_length hspan.symm
  exact ⟨hlex, hsmall, hmatch, hparse, hspan.symm, hstops⟩

end PieChecker.Surface
