import PieChecker.Proofs.Lexing.Scanning

set_option autoImplicit false

/-!
# Phrases

The texts that a printer writes: a word, a quoted word, or phrases in round brackets with one
space between them. The pieces that such a text is put together from are also the pieces that it
is split into, and so its lexemes are known without scanning it.
-/

namespace PieChecker.Lexer

mutual

/-- The pieces of a phrase. -/
inductive Phrase : List (List Char) → Prop where
  | word {w : List Char} (hw : IsWord w) (h : IsLexeme w) : Phrase [w]
  | quoted {w : List Char} (hw : IsWord w) (h : IsLexeme w) : Phrase [['\''], w]
  | group {l m : List (List Char)} (hl : Phrase l) (hm : Trail m) :
      Phrase (['('] :: (l ++ m ++ [[')']]))

/-- The pieces of any number of phrases, with a space before each. -/
inductive Trail : List (List Char) → Prop where
  | nil : Trail []
  | cons {l m : List (List Char)} (hl : Phrase l) (hm : Trail m) : Trail ([' '] :: (l ++ m))

end

variable {l m : List (List Char)}

theorem Trail.append {l m : List (List Char)} : Trail l → Trail m → Trail (l ++ m)
  | .nil, hm => hm
  | .cons hk hl, hm => by simpa using Trail.cons hk (hl.append hm)

/-! ## Classes and brackets -/

theorem isLexeme_space : IsLexeme [' '] := by
  refine ⟨_, .blank ⟨List.cons_ne_nil _ _, fun c hc => ?_⟩⟩
  rw [List.mem_singleton.1 hc]
  decide

theorem isLexeme_tick : IsLexeme ['\''] := ⟨_, .tick⟩

theorem isLexeme_openingRound : IsLexeme ['('] := ⟨_, .opening .round⟩

theorem isLexeme_closingRound : IsLexeme [')'] := ⟨_, .closing .round⟩

mutual

theorem Phrase.isLexeme {l : List (List Char)} : Phrase l → ∀ cs ∈ l, IsLexeme cs
  | .word _ h => by simpa using h
  | .quoted _ h => by simpa using ⟨isLexeme_tick, h⟩
  | .group hl hm => by
    have hl := hl.isLexeme
    have hm := hm.isLexeme
    grind [isLexeme_openingRound, isLexeme_closingRound]

theorem Trail.isLexeme {l : List (List Char)} : Trail l → ∀ cs ∈ l, IsLexeme cs
  | .nil => by simp
  | .cons hl hm => by
    have hl := hl.isLexeme
    have hm := hm.isLexeme
    grind [isLexeme_space]

end

theorem IsWord.not_isBracket {w : List Char} (h : IsWord w) : ¬ IsBracket w := by
  rintro ⟨b, rfl | rfl⟩ <;> cases b <;> exact absurd (h.2 _ List.mem_cons_self) (by decide)

theorem not_isBracket_space : ¬ IsBracket [' '] := by
  rintro ⟨b, h | h⟩ <;> cases b <;> cases h

theorem not_isBracket_tick : ¬ IsBracket ['\''] := by
  rintro ⟨b, h | h⟩ <;> cases b <;> cases h

mutual

theorem Phrase.nested {l : List (List Char)} : Phrase l → Nested l
  | .word hw _ => .plain hw.not_isBracket .nil
  | .quoted hw _ => .plain not_isBracket_tick (.plain hw.not_isBracket .nil)
  | .group hl hm => .group .round (hl.nested.append hm.nested) .nil

theorem Trail.nested {l : List (List Char)} : Trail l → Nested l
  | .nil => .nil
  | .cons hl hm => .plain not_isBracket_space (hl.nested.append hm.nested)

end

/-! ## Splitting a phrase -/

/-- The text is empty or starts with a character that ends a word. -/
def Delimited (cs : List Char) : Prop := ∀ c, cs.head? = some c → isDelimiter c = true

/-- The text starts with a character that is not blank. -/
def Solid (cs : List Char) : Prop := ∃ c ds, cs = c :: ds ∧ Text.isBlank c = false

variable {rest : List Char}

theorem pieces_word {w : List Char} (hw : IsWord w) (h : Delimited rest) :
    pieces (w ++ rest) = w :: pieces rest := by
  obtain ⟨c, cs, rfl⟩ := List.exists_cons_of_ne_nil hw.1
  have hc := hw.2 c List.mem_cons_self
  have hcs : ∀ d ∈ cs, (!isDelimiter d) = true := by
    intro d hd
    simp [hw.2 d (List.mem_cons_of_mem c hd)]
  have hblank := not_isBlank_of_not_isDelimiter hc
  have hsemicolon : c ≠ ';' := by
    rintro rfl
    cases hc
  have hsplit : splitPiece c (cs ++ rest) = (cs, rest) := by
    simp only [splitPiece, hblank, hsemicolon, hc, Bool.false_eq_true, if_false]
    rw [List.takeWhile_append_of_pos hcs, List.dropWhile_append_of_pos hcs]
    cases rest with
    | nil => simp
    | cons d ds => simp [h d rfl]
  rw [List.cons_append, pieces, hsplit]

theorem pieces_space (h : Solid rest) : pieces (' ' :: rest) = [' '] :: pieces rest := by
  obtain ⟨c, cs, rfl, hc⟩ := h
  have hspace : Text.isBlank ' ' = true := by decide
  rw [pieces]
  simp [splitPiece, hspace, hc]

theorem pieces_openingRound (rest : List Char) :
    pieces ('(' :: rest) = ['('] :: pieces rest := by
  rw [pieces]
  rfl

theorem pieces_closingRound (rest : List Char) :
    pieces (')' :: rest) = [')'] :: pieces rest := by
  rw [pieces]
  rfl

theorem pieces_tick (rest : List Char) : pieces ('\'' :: rest) = ['\''] :: pieces rest := by
  rw [pieces]
  rfl

theorem Solid.append {cs : List Char} (h : Solid cs) (ds : List Char) : Solid (cs ++ ds) := by
  obtain ⟨c, cs, rfl, hc⟩ := h
  exact ⟨c, cs ++ ds, rfl, hc⟩

theorem Phrase.solid (h : Phrase l) : Solid l.flatten := by
  cases h with
  | @word w hw _ =>
    obtain ⟨c, cs, rfl⟩ := List.exists_cons_of_ne_nil hw.1
    exact ⟨c, cs, by simp, not_isBlank_of_not_isDelimiter (hw.2 c List.mem_cons_self)⟩
  | quoted => exact ⟨_, _, rfl, by decide⟩
  | group => exact ⟨_, _, rfl, by decide⟩

theorem Trail.delimited (h : Trail l) (hrest : Delimited rest) :
    Delimited (l.flatten ++ rest) := by
  cases h with
  | nil => exact hrest
  | cons =>
    rintro c ⟨⟩
    decide

mutual

theorem Phrase.pieces_append {l : List (List Char)} {rest : List Char}
    (hrest : Delimited rest) :
    Phrase l → pieces (l.flatten ++ rest) = l ++ pieces rest
  | .word hw _ => by simpa using pieces_word hw hrest
  | .quoted hw _ => by simpa [pieces_tick] using pieces_word hw hrest
  | .group hl hm => by
    have hclosing : Delimited (')' :: rest) := by
      rintro c ⟨⟩
      decide
    have hpieces := hl.pieces_append (hm.delimited hclosing)
    rw [hm.pieces_append hclosing, pieces_closingRound] at hpieces
    simpa [pieces_openingRound] using hpieces

theorem Trail.pieces_append {l : List (List Char)} {rest : List Char} (hrest : Delimited rest) :
    Trail l → pieces (l.flatten ++ rest) = l ++ pieces rest
  | .nil => rfl
  | @Trail.cons _ m hl hm => by
    have hpieces := hl.pieces_append (hm.delimited hrest)
    have hspace := pieces_space (hl.solid.append (m.flatten ++ rest))
    rw [hpieces, hm.pieces_append hrest] at hspace
    simpa using hspace

end

/-- A phrase has the lexemes that it was put together from. -/
theorem Phrase.lex {source : String} (h : Phrase l) (hsource : source.toList = l.flatten) :
    lex source = .ok (lexemesFrom 0 l) := by
  have hpieces : pieces (l.flatten ++ []) = l ++ pieces [] := h.pieces_append (by nofun)
  have hnil : pieces [] = [] := by rw [pieces]
  rw [List.append_nil, hnil, List.append_nil, ← hsource] at hpieces
  exact lex_eq_ok_iff.2 ⟨hpieces ▸ h.isLexeme, hpieces ▸ h.nested, by rw [hpieces]⟩

/-! ## Texts with one lexeme -/

/-- A text with a single lexeme is a piece of the class of that lexeme. -/
theorem hasToken_of_lex {source : String} {x : Lexeme} (h : PieChecker.lex source = .ok [x]) :
    HasToken source.toList x.token := by
  obtain ⟨hlexemes, -, heq⟩ := lex_eq_ok_iff.1 h
  have hflatten := flatten_pieces source.toList
  generalize pieces source.toList = l at hlexemes heq hflatten
  match l, heq with
  | [cs], heq =>
    obtain rfl : cs = source.toList := by simpa using hflatten
    obtain ⟨t, ht⟩ := hlexemes _ List.mem_cons_self
    simp only [lexemesFrom, List.cons.injEq, and_true] at heq
    subst heq
    rwa [tokenOf_of_hasToken ht]

end PieChecker.Lexer
