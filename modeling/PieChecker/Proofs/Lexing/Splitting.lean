import Mathlib.Data.List.TakeWhile
import PieChecker.Token.Lexer

set_option autoImplicit false

/-!
# Longest match

What a piece of a text is, and what it means that a text is split into pieces from the left by
longest match. Neither says how the next piece is found. Every text has exactly one such split,
and it is the one that `pieces` returns.
-/

namespace PieChecker.Lexer

/-- One blank character or more. -/
def IsBlankRun (cs : List Char) : Prop := cs ≠ [] ∧ ∀ c ∈ cs, Text.isBlank c = true

/-- A semicolon and the rest of its line, with or without the newline that ends it. -/
def IsComment (cs : List Char) : Prop :=
  ∃ line, '\n' ∉ line ∧ (cs = ';' :: line ∨ cs = ';' :: (line ++ ['\n']))

/-- One character or more, none of which ends a word. -/
def IsWord (cs : List Char) : Prop := cs ≠ [] ∧ ∀ c ∈ cs, isDelimiter c = false

/-- The pieces that a text may be split into. -/
inductive IsPiece : List Char → Prop where
  | blank {cs : List Char} (h : IsBlankRun cs) : IsPiece cs
  | comment {cs : List Char} (h : IsComment cs) : IsPiece cs
  | opening (b : Bracket) : IsPiece [b.openingChar]
  | closing (b : Bracket) : IsPiece [b.closingChar]
  | tick : IsPiece ['\'']
  | word {cs : List Char} (h : IsWord cs) : IsPiece cs

/-- The first piece of a text cannot be made longer by any of the text after it. -/
structure LongestMatch (cs rest : List Char) : Prop where
  piece : IsPiece cs
  longest : ∀ ds, IsPiece ds → ds <+: cs ++ rest → ds.length ≤ cs.length

/-- The text splits into these pieces, each of which is as long as it can be where it starts. -/
inductive Splits : List Char → List (List Char) → Prop where
  | nil : Splits [] []
  | cons {cs rest : List Char} {l : List (List Char)} (h : LongestMatch cs rest)
      (hl : Splits rest l) :
    Splits (cs ++ rest) (cs :: l)

theorem IsPiece.ne_nil {cs : List Char} (h : IsPiece cs) : cs ≠ [] := by
  cases h with
  | blank h => exact h.1
  | comment h => obtain ⟨line, -, rfl | rfl⟩ := h <;> exact List.cons_ne_nil _ _
  | word h => exact h.1
  | opening | closing | tick => exact List.cons_ne_nil _ _

/-! ## What follows the first character of a piece -/

theorem isDelimiter_of_isBlank {c : Char} (h : Text.isBlank c = true) :
    isDelimiter c = true := by
  simp [isDelimiter, h]

theorem not_isBlank_of_not_isDelimiter {c : Char} (h : isDelimiter c = false) :
    Text.isBlank c = false := by
  cases hblank : Text.isBlank c with
  | false => rfl
  | true => cases (isDelimiter_of_isBlank hblank).symm.trans h

variable {c : Char} {cs ds : List Char}

/-- The pieces by their first character: it decides what may follow. -/
theorem isPiece_cons_iff : IsPiece (c :: cs) ↔
    (Text.isBlank c = true ∧ ∀ d ∈ cs, Text.isBlank d = true) ∨
    (c = ';' ∧ ∃ line, '\n' ∉ line ∧ (cs = line ∨ cs = line ++ ['\n'])) ∨
    (c ∈ ['(', ')', '[', ']', '\''] ∧ cs = []) ∨
    (isDelimiter c = false ∧ ∀ d ∈ cs, isDelimiter d = false) := by
  constructor
  · intro h
    generalize hds : c :: cs = ds at h
    cases h with
    | blank h =>
      subst hds
      exact .inl (List.forall_mem_cons.1 h.2)
    | comment h =>
      obtain ⟨line, hline, rfl | rfl⟩ := h <;> cases hds
      · exact .inr (.inl ⟨rfl, _, hline, .inl rfl⟩)
      · exact .inr (.inl ⟨rfl, _, hline, .inr rfl⟩)
    | opening b =>
      cases hds
      exact .inr (.inr (.inl ⟨by cases b <;> decide, rfl⟩))
    | closing b =>
      cases hds
      exact .inr (.inr (.inl ⟨by cases b <;> decide, rfl⟩))
    | tick =>
      cases hds
      exact .inr (.inr (.inl ⟨by decide, rfl⟩))
    | word h =>
      subst hds
      exact .inr (.inr (.inr (List.forall_mem_cons.1 h.2)))
  · rintro (h | ⟨rfl, line, hline, h⟩ | ⟨hc, rfl⟩ | h)
    · exact .blank ⟨List.cons_ne_nil _ _, List.forall_mem_cons.2 h⟩
    · exact .comment ⟨line, hline, h.imp (congrArg _) (congrArg _)⟩
    · simp only [List.mem_cons, List.not_mem_nil, or_false] at hc
      rcases hc with rfl | rfl | rfl | rfl | rfl
      · exact .opening .round
      · exact .closing .round
      · exact .opening .square
      · exact .closing .square
      · exact .tick
    · exact .word ⟨List.cons_ne_nil _ _, List.forall_mem_cons.2 h⟩

theorem isPiece_cons_of_isBlank (hc : Text.isBlank c = true) :
    IsPiece (c :: cs) ↔ ∀ d ∈ cs, Text.isBlank d = true := by
  have hsemicolon : c ≠ ';' := by rintro rfl; cases hc
  have hmem : c ∉ ['(', ')', '[', ']', '\''] := by
    simp only [List.mem_cons, List.not_mem_nil, or_false]
    rintro (rfl | rfl | rfl | rfl | rfl) <;> cases hc
  simp [isPiece_cons_iff, hc, hsemicolon, hmem, isDelimiter_of_isBlank hc]

theorem isPiece_cons_semicolon : IsPiece (';' :: cs) ↔ ∃ line, '\n' ∉ line ∧
    (cs = line ∨ cs = line ++ ['\n']) := by
  have hblank : Text.isBlank ';' = false := by decide
  have hdelimiter : isDelimiter ';' = true := by decide
  simp [isPiece_cons_iff, hblank, hdelimiter]

theorem isPiece_cons_of_isDelimiter (hblank : Text.isBlank c = false) (hsemicolon : c ≠ ';')
    (hc : isDelimiter c = true) : IsPiece (c :: cs) ↔ cs = [] := by
  have hmem : c ∈ ['(', ')', '[', ']', '\''] := by
    simpa [isDelimiter, hblank, hsemicolon, or_assoc] using hc
  simp only [isPiece_cons_iff, hblank, hsemicolon, hmem, hc]
  simp

theorem isPiece_cons_of_not_isDelimiter (hc : isDelimiter c = false) :
    IsPiece (c :: cs) ↔ ∀ d ∈ cs, isDelimiter d = false := by
  have hblank := not_isBlank_of_not_isDelimiter hc
  have hsemicolon : c ≠ ';' := by rintro rfl; cases hc
  have hmem : c ∉ ['(', ')', '[', ']', '\''] := by
    simp only [List.mem_cons, List.not_mem_nil, or_false]
    rintro (rfl | rfl | rfl | rfl | rfl) <;> cases hc
  simp [isPiece_cons_iff, hblank, hsemicolon, hmem, hc]

/-! ## The next piece of a text -/

/-- No beginning of a text that satisfies `p` throughout is longer than what `takeWhile`
takes. -/
theorem length_le_takeWhile {p : Char → Bool} (h : ds <+: cs) (hds : ∀ d ∈ ds, p d = true) :
    ds.length ≤ (cs.takeWhile p).length := by
  obtain ⟨rest, rfl⟩ := h
  rw [List.takeWhile_append_of_pos hds, List.length_append]
  omega

/-- What is split off is a line: it holds no newline, except that it may end in one. -/
theorem splitLine_fst (cs : List Char) :
    ∃ line, '\n' ∉ line ∧ ((splitLine cs).1 = line ∨ (splitLine cs).1 = line ++ ['\n']) := by
  induction cs with
  | nil => exact ⟨[], List.not_mem_nil, .inl rfl⟩
  | cons c cs ih =>
    by_cases hc : c = '\n'
    · exact ⟨[], List.not_mem_nil, .inr (by simp [splitLine, hc])⟩
    · obtain ⟨line, hline, h⟩ := ih
      refine ⟨c :: line, by simp [hline, Ne.symm hc], ?_⟩
      simpa [splitLine, hc] using h

/-- No line at the beginning of a text is longer than the one that is split off. -/
theorem length_le_splitLine {line : List Char} (h : ds <+: cs) (hline : '\n' ∉ line)
    (hds : ds = line ∨ ds = line ++ ['\n']) : ds.length ≤ (splitLine cs).1.length := by
  obtain ⟨rest, rfl⟩ := h
  induction line generalizing ds with
  | nil =>
    obtain rfl | rfl := hds
    · exact Nat.zero_le _
    · simp [splitLine]
  | cons c line ih =>
    have hc : c ≠ '\n' := fun heq => hline (heq ▸ List.mem_cons_self)
    have hline : '\n' ∉ line := fun hmem => hline (List.mem_cons_of_mem c hmem)
    obtain rfl | rfl := hds
    · simpa [splitLine, hc] using ih hline (.inl rfl)
    · simpa [splitLine, hc] using ih hline (.inr rfl)

/-- The piece that is split off a text is a longest match. -/
theorem longestMatch_splitPiece (c : Char) (cs : List Char) :
    LongestMatch (c :: (splitPiece c cs).1) (splitPiece c cs).2 := by
  -- Both halves go by the first character. The second one is about any other piece that starts
  -- there.
  suffices h : IsPiece (c :: (splitPiece c cs).1) ∧
      ∀ ds, IsPiece (c :: ds) → ds <+: cs → ds.length ≤ (splitPiece c cs).1.length by
    refine ⟨h.1, fun ds hds hprefix => ?_⟩
    obtain ⟨d, ds, rfl⟩ := List.exists_cons_of_ne_nil hds.ne_nil
    rw [List.cons_append, splitPiece_append] at hprefix
    obtain ⟨rfl, htail⟩ := List.cons_prefix_cons.1 hprefix
    exact Nat.succ_le_succ (h.2 ds hds htail)
  unfold splitPiece
  split
  case isTrue hc =>
    simp only [isPiece_cons_of_isBlank hc]
    exact ⟨fun d hd => List.mem_takeWhile_imp hd, fun ds hds h => length_le_takeWhile h hds⟩
  split
  case isTrue hc =>
    subst hc
    simp only [isPiece_cons_semicolon]
    exact ⟨splitLine_fst cs, fun ds ⟨line, hline, hds⟩ h => length_le_splitLine h hline hds⟩
  split
  case isTrue hblank hsemicolon hc =>
    simp only [isPiece_cons_of_isDelimiter (by simpa using hblank) hsemicolon hc]
    exact ⟨trivial, fun ds hds _ => by rw [hds]⟩
  case isFalse _ _ hc =>
    simp only [isPiece_cons_of_not_isDelimiter (by simpa using hc)]
    refine ⟨fun d hd => by simpa using List.mem_takeWhile_imp hd, fun ds hds h =>
      length_le_takeWhile h ?_⟩
    simpa using hds

/-! ## The split of a text -/

theorem splits_pieces (cs : List Char) : Splits cs (pieces cs) := by
  fun_induction pieces cs with
  | case1 => exact .nil
  | case2 c cs ih =>
    have h := Splits.cons (longestMatch_splitPiece c cs) ih
    rwa [List.cons_append, splitPiece_append] at h

/-- There is only one longest piece at the beginning of a text. -/
theorem LongestMatch.unique {rest rest' : List Char} (h : LongestMatch cs rest)
    (h' : LongestMatch ds rest') (heq : cs ++ rest = ds ++ rest') : cs = ds ∧ rest = rest' := by
  have hle := h'.longest cs h.piece ⟨rest, heq⟩
  have hge := h.longest ds h'.piece ⟨rest', heq.symm⟩
  exact List.append_inj heq (Nat.le_antisymm hle hge)

/-- A text splits by longest match into exactly the pieces that `pieces` returns. -/
theorem splits_iff {l : List (List Char)} : Splits cs l ↔ l = pieces cs := by
  constructor
  · intro h
    induction h with
    | nil => rw [pieces]
    | @cons cs rest l h hl ih =>
      obtain ⟨c, cs, rfl⟩ := List.exists_cons_of_ne_nil h.piece.ne_nil
      have hmatch := longestMatch_splitPiece c (cs ++ rest)
      obtain ⟨hcs, hrest⟩ := h.unique hmatch (by simp [splitPiece_append])
      rw [List.cons_append, pieces, ← hcs, ← hrest, ih]
  · rintro rfl
    exact splits_pieces cs

/-- What is split off a text is a piece. -/
theorem isPiece_of_mem_pieces (h : ds ∈ pieces cs) : IsPiece ds := by
  have hsplits := splits_pieces cs
  generalize pieces cs = l at h hsplits
  induction hsplits with
  | nil => cases h
  | cons hmatch _ ih =>
    obtain rfl | h := List.mem_cons.1 h
    · exact hmatch.piece
    · exact ih h

end PieChecker.Lexer
