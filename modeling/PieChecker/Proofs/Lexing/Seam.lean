import PieChecker.Proofs.Lexing.Scanning

set_option autoImplicit false

/-!
# Two texts on lines of their own

The lexemes of two texts with a newline between them. The newline ends a comment of the first
text that has none of its own. Otherwise it joins the blanks on both sides of it, and these
become one piece. Everything but blanks is the same as in the two texts, at the same places in
the first one and at shifted places in the second.
-/

namespace PieChecker

/-- The span when this many bytes are put before the text. -/
def Span.shift (n : Nat) (s : Span) : Span := ⟨s.start + n, s.stop + n⟩

theorem Span.shift_injective (n : Nat) : Function.Injective (Span.shift n) := by
  intro s t h
  obtain ⟨s₁, s₂⟩ := s
  obtain ⟨t₁, t₂⟩ := t
  simpa [Span.shift] using h

/-- The lexeme when this many bytes are put before the text. -/
def Lexeme.shift (n : Nat) (l : Lexeme) : Lexeme := ⟨l.token, l.start + n, l.text⟩

theorem Lexeme.stop_shift (n : Nat) (l : Lexeme) : (l.shift n).stop = l.stop + n := by
  simp only [Lexeme.stop, Lexeme.shift]
  omega

theorem Lexeme.span_shift (n : Nat) (l : Lexeme) : (l.shift n).span = l.span.shift n := by
  unfold Lexeme.span
  rw [l.stop_shift]
  rfl

namespace Lexer

/-- The pieces that are no more than space between others. -/
def Space (l : List (List Char)) : Prop := ∀ cs ∈ l, HasToken cs .blank

theorem Space.nil : Space [] := nofun

theorem space_blankRun {cs : List Char} (h : IsBlankRun cs) : Space [cs] :=
  List.forall_mem_singleton.2 (.blank h)

theorem space_comment {cs : List Char} (h : IsComment cs) : Space [cs] :=
  List.forall_mem_singleton.2 (.comment h)

/-! ## Pieces across the newline -/

variable {c : Char} {cs ds : List Char}

theorem takeWhile_dropWhile_append_newline {p : Char → Bool} (ds : List Char)
    (h : p '\n' = false ∨ ∃ c ∈ cs, p c = false) :
    (cs ++ '\n' :: ds).takeWhile p = cs.takeWhile p ∧
      (cs ++ '\n' :: ds).dropWhile p = cs.dropWhile p ++ '\n' :: ds := by
  induction cs with
  | nil =>
    have hnewline : p '\n' = false := by simpa using h
    simp [hnewline]
  | cons c cs ih =>
    cases hc : p c with
    | false => simp [hc]
    | true =>
      have hrest := ih (by simpa [hc] using h)
      simpa [hc] using hrest

theorem splitLine_append_newline (cs ds : List Char) :
    splitLine (cs ++ '\n' :: ds) =
      if '\n' ∈ cs then ((splitLine cs).1, (splitLine cs).2 ++ '\n' :: ds)
        else (cs ++ ['\n'], ds) := by
  induction cs with
  | nil => simp [splitLine]
  | cons c cs ih =>
    by_cases hc : c = '\n'
    · simp [splitLine, hc]
    · rw [List.cons_append, splitLine, if_neg hc, ih]
      by_cases h : '\n' ∈ cs
      · simp [splitLine, hc, h]
      · simp [Ne.symm hc, h]

/-- A newline after the text changes no piece of it, except a run of blanks or a comment that
reaches the end. -/
theorem splitPiece_append_newline (c : Char) (cs ds : List Char) :
    splitPiece c (cs ++ '\n' :: ds) = ((splitPiece c cs).1, (splitPiece c cs).2 ++ '\n' :: ds) ∨
      IsBlankRun (c :: cs) ∨ (c = ';' ∧ '\n' ∉ cs) := by
  unfold splitPiece
  split
  case isTrue hc =>
    by_cases hcs : ∀ d ∈ cs, Text.isBlank d = true
    · exact .inr (.inl ⟨List.cons_ne_nil _ _, List.forall_mem_cons.2 ⟨hc, hcs⟩⟩)
    · have hstop : ∃ d ∈ cs, Text.isBlank d = false := by simpa using hcs
      obtain ⟨htake, hdrop⟩ := takeWhile_dropWhile_append_newline ds (.inr hstop)
      exact .inl (by rw [htake, hdrop])
  split
  case isTrue hc =>
    by_cases hcs : '\n' ∈ cs
    · exact .inl (by rw [splitLine_append_newline, if_pos hcs])
    · exact .inr (.inr ⟨hc, hcs⟩)
  split
  · exact .inl rfl
  · -- A word ends before the newline in any case.
    have hnewline : (!isDelimiter '\n') = false := by decide
    obtain ⟨htake, hdrop⟩ := takeWhile_dropWhile_append_newline (p := (!isDelimiter ·)) ds
      (.inl hnewline)
    exact .inl (by rw [htake, hdrop])

/-- A text that is a piece is not split. -/
theorem pieces_of_isPiece (h : IsPiece cs) : pieces cs = [cs] := by
  have hmatch : LongestMatch cs [] := ⟨h, fun ds _ hds => by simpa using hds.length_le⟩
  have hsplits := splits_iff.1 (.cons hmatch .nil)
  rw [List.append_nil] at hsplits
  exact hsplits.symm

/-- A run of blanks takes in the blanks that follow it. -/
theorem pieces_blankRun_append (hcs : IsBlankRun cs) (ds : List Char) :
    ∃ run, IsBlankRun run ∧ pieces (cs ++ ds) = run :: pieces (ds.dropWhile Text.isBlank) := by
  obtain ⟨hne, hcs⟩ := hcs
  obtain ⟨c, cs, rfl⟩ := List.exists_cons_of_ne_nil hne
  obtain ⟨hc, hcs⟩ := List.forall_mem_cons.1 hcs
  refine ⟨c :: (cs ++ ds.takeWhile Text.isBlank), ⟨List.cons_ne_nil _ _, ?_⟩, ?_⟩
  · intro d hd
    rcases List.mem_cons.1 hd with rfl | hd
    · exact hc
    rcases List.mem_append.1 hd with hd | hd
    · exact hcs d hd
    · exact List.mem_takeWhile_imp hd
  · rw [List.cons_append, pieces, splitPiece, if_pos hc, List.takeWhile_append_of_pos hcs,
      List.dropWhile_append_of_pos hcs]

theorem isBlankRun_singleton (hc : Text.isBlank c = true) : IsBlankRun [c] :=
  ⟨List.cons_ne_nil _ _, List.forall_mem_singleton.2 hc⟩

/-- Blanks at the beginning of a text are a piece of their own. -/
theorem pieces_eq_space_append (ds : List Char) :
    ∃ lead, Space lead ∧ pieces ds = lead ++ pieces (ds.dropWhile Text.isBlank) := by
  cases ds with
  | nil => exact ⟨[], .nil, rfl⟩
  | cons d ds =>
    by_cases hd : Text.isBlank d = true
    · obtain ⟨run, hrun, hpieces⟩ := pieces_blankRun_append (isBlankRun_singleton hd) ds
      exact ⟨[run], space_blankRun hrun, by rwa [List.dropWhile_cons_of_pos hd]⟩
    · exact ⟨[], .nil, by rw [List.dropWhile_cons_of_neg hd]; rfl⟩

/-- The pieces of two texts with a newline between them. -/
theorem pieces_append_newline (cs ds : List Char) : ∃ body tail lead rest seam, Space tail ∧
    Space lead ∧ Space seam ∧
    pieces cs = body ++ tail ∧ pieces ds = lead ++ rest ∧
    pieces (cs ++ '\n' :: ds) = body ++ seam ++ rest := by
  obtain ⟨lead, hlead, hds⟩ := pieces_eq_space_append ds
  have hnewline : Text.isBlank '\n' = true := by decide
  induction cs using pieces.induct with
  | case1 =>
    obtain ⟨run, hrun, hpieces⟩ := pieces_blankRun_append (isBlankRun_singleton hnewline) ds
    exact ⟨[], [], lead, _, [run], .nil, hlead, space_blankRun hrun, by rw [pieces]; rfl,
      hds, hpieces⟩
  | case2 c cs ih =>
    obtain h | h | ⟨rfl, h⟩ := splitPiece_append_newline c cs ds
    · -- The first piece ends within the text.
      obtain ⟨body, tail, lead', rest, seam, htail, hlead', hseam, hbody, hrest, hpieces⟩ := ih
      refine ⟨(c :: (splitPiece c cs).1) :: body, tail, lead', rest, seam, htail, hlead', hseam,
        ?_, hrest, ?_⟩
      · rw [pieces, hbody, List.cons_append]
      · rw [List.cons_append, pieces, h, hpieces]
        rfl
    · -- The text is one run of blanks, and the newline and the blanks after it join it.
      obtain ⟨run, hrun, hpieces⟩ := pieces_blankRun_append h ('\n' :: ds)
      rw [List.dropWhile_cons_of_pos hnewline] at hpieces
      exact ⟨[], _, lead, _, [run], space_blankRun h, hlead, space_blankRun hrun,
        pieces_of_isPiece (.blank h), hds, hpieces⟩
    · -- The text is one comment, and the newline ends it.
      have hcomment : IsComment (';' :: cs) := ⟨cs, h, .inl rfl⟩
      have hended : IsComment (';' :: (cs ++ ['\n'])) := ⟨cs, h, .inr rfl⟩
      have hsplit : splitPiece ';' (cs ++ '\n' :: ds) = (cs ++ ['\n'], ds) := by
        rw [splitPiece, if_neg (by decide), if_pos rfl, splitLine_append_newline, if_neg h]
      refine ⟨[], _, [], _, [_], space_comment hcomment, .nil, space_comment hended,
        pieces_of_isPiece (.comment hcomment), rfl, ?_⟩
      rw [List.cons_append, pieces, hsplit]
      rfl

/-! ## Lexemes across the newline -/

theorem IsLexeme.isPiece (h : IsLexeme cs) : IsPiece cs := by
  obtain ⟨t, h⟩ := h
  cases h with
  | blank h => exact .blank h
  | comment h => exact .comment h
  | opening b => exact .opening b
  | closing b => exact .closing b
  | tick => exact .tick
  | word hcs _ => exact .word hcs

theorem Space.isLexeme {l : List (List Char)} (h : Space l) : ∀ cs ∈ l, IsLexeme cs :=
  fun cs hcs => ⟨_, h cs hcs⟩

theorem not_isBracket_of_blank (h : HasToken cs .blank) : ¬ IsBracket cs := by
  rintro ⟨b, rfl | rfl⟩
  · have htoken := tokenOf_of_hasToken (.opening b)
    rw [tokenOf_of_hasToken h] at htoken
    cases htoken
  · have htoken := tokenOf_of_hasToken (.closing b)
    rw [tokenOf_of_hasToken h] at htoken
    cases htoken

theorem Space.nested {l : List (List Char)} (h : Space l) : Nested l := by
  induction l with
  | nil => exact .nil
  | cons cs l ih =>
    obtain ⟨hcs, hl⟩ := List.forall_mem_cons.1 h
    exact .plain (not_isBracket_of_blank hcs) (ih hl)

/-- Space before pieces has no part in how they nest. -/
theorem Nested.of_space_append {l m : List (List Char)} (hl : Space l) (h : Nested (l ++ m)) :
    Nested m := by
  induction l with
  | nil => exact h
  | cons cs l ih =>
    obtain ⟨hcs, hl⟩ := List.forall_mem_cons.1 hl
    rw [List.cons_append] at h
    generalize htail : l ++ m = tail at h
    cases h with
    | plain _ h => exact ih hl (htail ▸ h)
    | group b => exact (not_isBracket_of_blank hcs ⟨b, .inl rfl⟩).elim

/-- Neither has space after them: what would be left open before it would still be open after
it. -/
theorem Nested.of_append_space {l m : List (List Char)} (hl : ∀ cs ∈ l, IsLexeme cs)
    (hm : Space m) (h : Nested (l ++ m)) : Nested l := by
  have hlexemes : ∀ cs ∈ l ++ m, IsLexeme cs := by
    intro cs hcs
    rcases List.mem_append.1 hcs with hcs | hcs
    · exact hl cs hcs
    · exact hm.isLexeme cs hcs
  have hscan := scan_of_nested hlexemes h
  obtain ⟨-, hnested⟩ | ⟨e, hfault⟩ := nested_or_firstFault fun cs hcs => (hl cs hcs).isPiece
  · exact hnested
  have herror : FirstFault (l ++ m) e := by
    cases hfault with
    | piece hbefore hcs =>
      rw [List.append_assoc, List.cons_append]
      exact .piece hbefore hcs
    | unclosed hopen =>
      exact .unclosed (hopen.append hm.isLexeme (hopen.leavesOpen.append hm.nested))
  rw [scan_firstFault herror] at hscan
  cases hscan

theorem blanks_lexemesFrom {l : List (List Char)} (h : Space l) (position : Nat) :
    ∀ x ∈ lexemesFrom position l, x.token = .blank := by
  intro x hx
  obtain ⟨before, cs, after, rfl, rfl⟩ := exists_of_mem_lexemesFrom hx
  exact tokenOf_of_hasToken (h cs (by simp))

theorem lexemesFrom_add (position n : Nat) (l : List (List Char)) :
    lexemesFrom (position + n) l = (lexemesFrom position l).map (Lexeme.shift n) := by
  induction l generalizing position with
  | nil => rfl
  | cons cs l ih =>
    rw [lexemesFrom, lexemesFrom, List.map_cons, ← ih, Nat.add_right_comm]
    rfl

end Lexer

open Lexer

/-- Two texts that have lexemes, with a newline between them: the lexemes are those of the two
texts, the ones of the second text shifted, except for the blanks at the end of the first and at
the beginning of the second. -/
theorem lex_append_newline {a b : String} {xs ys : List Lexeme} (ha : lex a = .ok xs)
    (hb : lex b = .ok ys) :
    ∃ body tail lead rest seam, xs = body ++ tail ∧ ys = lead ++ rest ∧
      (∀ x ∈ tail, x.token = .blank) ∧
      (∀ x ∈ lead, x.token = .blank) ∧ (∀ x ∈ seam, x.token = .blank) ∧
      lex (a ++ "\n" ++ b) = .ok (body ++ seam ++
        rest.map (Lexeme.shift (a.utf8ByteSize + 1))) := by
  obtain ⟨hlexemesa, hnesteda, rfl⟩ := lex_eq_ok_iff.1 ha
  obtain ⟨hlexemesb, hnestedb, rfl⟩ := lex_eq_ok_iff.1 hb
  obtain ⟨body, tail, lead, rest, seam, htail, hlead, hseam, hbody, hrest, hpieces⟩ :=
    pieces_append_newline a.toList b.toList
  rw [hbody] at hlexemesa hnesteda ⊢
  rw [hrest] at hlexemesb hnestedb ⊢
  obtain ⟨hlexemesbody, -⟩ := List.forall_mem_append.1 hlexemesa
  obtain ⟨-, hlexemesrest⟩ := List.forall_mem_append.1 hlexemesb
  have hnested : Nested (body ++ seam ++ rest) :=
    ((hnesteda.of_append_space hlexemesbody htail).append hseam.nested).append
      (hnestedb.of_space_append hlead)
  have hlexemes : ∀ cs ∈ body ++ seam ++ rest, IsLexeme cs :=
    List.forall_mem_append.2 ⟨List.forall_mem_append.2 ⟨hlexemesbody, hseam.isLexeme⟩,
      hlexemesrest⟩
  -- The bytes before `rest`, counted in the joined text and in the second one.
  have hposition : Text.byteSize (body ++ seam).flatten =
      Text.byteSize lead.flatten + (a.utf8ByteSize + 1) := by
    have hjoined := congrArg (Text.byteSize ·.flatten) hpieces
    have hsecond := congrArg (Text.byteSize ·.flatten) hrest
    have hnewline : '\n'.utf8Size = 1 := by decide
    have ha : a.utf8ByteSize = Text.byteSize a.toList := by
      rw [← utf8ByteSize_ofList, String.ofList_toList]
    simp only [flatten_pieces, List.flatten_append, byteSize_append,
      byteSize_cons] at hjoined hsecond ⊢
    omega
  refine ⟨lexemesFrom 0 body, lexemesFrom (0 + Text.byteSize body.flatten) tail,
    lexemesFrom 0 lead, lexemesFrom (0 + Text.byteSize lead.flatten) rest,
    lexemesFrom (0 + Text.byteSize body.flatten) seam, lexemesFrom_append _ _ _,
    lexemesFrom_append _ _ _, blanks_lexemesFrom htail _, blanks_lexemesFrom hlead _,
    blanks_lexemesFrom hseam _, ?_⟩
  have htext : (a ++ "\n" ++ b).toList = a.toList ++ '\n' :: b.toList := by simp
  rw [lex_eq_ok_iff, htext, hpieces]
  refine ⟨hlexemes, hnested, ?_⟩
  rw [lexemesFrom_append, hposition, lexemesFrom_append, ← Nat.add_assoc,
    lexemesFrom_add _ (_ + 1)]

end PieChecker
