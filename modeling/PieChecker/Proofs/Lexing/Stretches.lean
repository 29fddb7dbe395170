import PieChecker.Proofs.Lexing.Seam

set_option autoImplicit false

/-!
# A stretch of a text by itself

Lexemes that follow each other in a text cover a stretch of it. If their brackets pair up, then
the stretch is a text of its own that has the same lexemes, at places that are counted from its
start. Nothing before the stretch has a part in how it is split, because a piece depends on what
follows it only; and a piece that could be longer in the stretch could be longer in the text.

Brackets that pair up need not be asked to be of the same kind: the text around the stretch has
lexemes, so a bracket in it is closed by one of its kind.
-/

namespace PieChecker

open Text (byteSize)

namespace Lexer

variable {c : Char} {cs rest : List Char} {l m : List (List Char)}

/-! ## The split of a stretch -/

theorem Splits.flatten_eq (h : Splits cs l) : l.flatten = cs := by
  induction h with
  | nil => rfl
  | cons _ _ ih => rw [List.flatten_cons, ih]

/-- With less text after it, a piece is still as long as it can be. -/
theorem LongestMatch.of_isPrefix {rest' : List Char} (h : LongestMatch cs rest)
    (hrest : rest' <+: rest) :
    LongestMatch cs rest' where
  piece := h.piece
  longest ds hds hle := h.longest ds hds (hle.trans ((List.prefix_append_right_inj cs).2 hrest))

theorem Splits.of_append_right (h : Splits cs (l ++ m)) : Splits m.flatten m := by
  induction l generalizing cs with
  | nil => exact h.flatten_eq ▸ h
  | cons ds l ih =>
    cases h with
    | cons _ h => exact ih h

theorem Splits.of_append_left (h : Splits cs (l ++ m)) : Splits l.flatten l := by
  induction l generalizing cs with
  | nil => exact .nil
  | cons ds l ih =>
    cases h with
    | cons hds h =>
      have hrest : l.flatten <+: (l ++ m).flatten := by
        rw [List.flatten_append]
        exact List.prefix_append _ _
      exact .cons (hds.of_isPrefix (h.flatten_eq ▸ hrest)) (ih h)

/-- Pieces that follow each other are the pieces of what they make up. -/
theorem pieces_flatten_of_infix (h : m <:+: pieces cs) : pieces m.flatten = m := by
  obtain ⟨before, after, h⟩ := h
  have hsplits := splits_pieces cs
  rw [← h] at hsplits
  exact (splits_iff.1 hsplits.of_append_left.of_append_right).symm

/-- A part of the lexemes is made of a part of the pieces. -/
theorem lexemesFrom_eq_append {position : Nat} {xs ys : List Lexeme}
    (h : lexemesFrom position l = xs ++ ys) :
    ∃ m m', l = m ++ m' ∧ xs = lexemesFrom position m ∧
    ys = lexemesFrom (position + byteSize m.flatten) m' := by
  induction xs generalizing position l with
  | nil => exact ⟨[], l, rfl, rfl, h.symm⟩
  | cons x xs ih =>
    cases l with
    | nil => cases h
    | cons cs l =>
      obtain ⟨rfl, hrest⟩ := List.cons.inj h
      obtain ⟨m, m', rfl, rfl, rfl⟩ := ih hrest
      exact ⟨cs :: m, m', rfl, rfl, by simp [Nat.add_assoc]⟩

/-! ## Brackets that pair up -/

/-- Every opening bracket among the lexemes has a closing one, of whichever kind. -/
inductive Balanced : List Lexeme → Prop where
  | nil : Balanced []
  | plain {x : Lexeme} {xs : List Lexeme} (hopening : x.token ≠ .opening)
      (hclosing : x.token ≠ .closing)
    (h : Balanced xs) : Balanced (x :: xs)
  | group {x y : Lexeme} {inner xs : List Lexeme} (hx : x.token = .opening)
      (hinner : Balanced inner)
    (hy : y.token = .closing) (h : Balanced xs) : Balanced (x :: (inner ++ y :: xs))

theorem Balanced.append {xs ys : List Lexeme} (h : Balanced xs) (h' : Balanced ys) :
    Balanced (xs ++ ys) := by
  induction h with
  | nil => exact h'
  | plain hopening hclosing _ ih => exact .plain hopening hclosing ih
  | group hx hinner hy _ _ ih =>
    rw [List.cons_append, List.append_assoc, List.cons_append]
    exact .group hx hinner hy ih

theorem eq_openingChar (h : IsLexeme cs) (htoken : tokenOf cs = .opening) :
    ∃ b : Bracket, cs = [b.openingChar] := by
  obtain ⟨t, h⟩ := h
  rw [tokenOf_of_hasToken h] at htoken
  subst htoken
  cases h with
  | opening b => exact ⟨b, rfl⟩
  | word _ h => cases h

theorem eq_closingChar (h : IsLexeme cs) (htoken : tokenOf cs = .closing) :
    ∃ b : Bracket, cs = [b.closingChar] := by
  obtain ⟨t, h⟩ := h
  rw [tokenOf_of_hasToken h] at htoken
  subst htoken
  cases h with
  | closing b => exact ⟨b, rfl⟩
  | word _ h => cases h

theorem not_isBracket (hopening : tokenOf cs ≠ .opening) (hclosing : tokenOf cs ≠ .closing) :
    ¬ IsBracket cs := by
  rintro ⟨b, rfl | rfl⟩
  · exact hopening (tokenOf_of_hasToken (.opening b))
  · exact hclosing (tokenOf_of_hasToken (.closing b))

/-! ## The scanner inside a stretch -/

variable {position : Nat} {os : List (Bracket × Nat)} {xs : List Lexeme}

theorem exists_of_map_eq_ok {ε α β : Type} {f : α → β} {r : Except ε α} {b : β}
    (h : f <$> r = .ok b) :
    ∃ a, r = .ok a := by
  cases r with
  | ok a => exact ⟨a, rfl⟩
  | error e => cases h

/-- What is left of pieces that are read can be read, with some brackets open. -/
theorem scan_of_append (h : scan position os (l ++ m) = .ok xs) :
    ∃ position' os' ys, scan position' os' m = .ok ys := by
  induction l generalizing position os xs with
  | nil => exact ⟨position, os, xs, h⟩
  | cons cs l ih =>
    rw [List.cons_append, scan] at h
    split at h
    · obtain ⟨ys, hys⟩ := exists_of_map_eq_ok h
      exact ih hys
    · obtain ⟨ys, hys⟩ := exists_of_map_eq_ok h
      exact ih hys
    · split at h
      · split at h
        · obtain ⟨ys, hys⟩ := exists_of_map_eq_ok h
          exact ih hys
        · cases h
      · cases h
    · cases h

/-- A bracket is closed by one of its kind. -/
theorem eq_of_scan_closing {b b' : Bracket} {start : Nat}
    (h : scan position ((b, start) :: os) ([b'.closingChar] :: l) = .ok xs) : b' = b := by
  by_contra hne
  have hblocked : Blocked ((b, start) :: os) [b'.closingChar] (.mismatchedBracket b') := by
    refine .mismatched fun start' heq => hne ?_
    cases heq
    rfl
  rw [scan_blocked hblocked] at h
  cases h

/-- Brackets that pair up in a text that is read are nested, and what was open before them is
open after them. -/
theorem nested_of_balanced {start : Nat} (hm : ∀ cs ∈ m, IsLexeme cs)
    (hbalanced : Balanced (lexemesFrom start m)) {after : List (List Char)}
    (h : scan position os (m ++ after) = .ok xs) :
    Nested m ∧ ∃ position' ys, scan position' os after = .ok ys := by
  generalize hlexemes : lexemesFrom start m = used at hbalanced
  induction hbalanced generalizing start m position os xs after with
  | nil =>
    cases m with
    | nil => exact ⟨.nil, position, xs, h⟩
    | cons => cases hlexemes
  | plain hopening hclosing _ ih =>
    cases m with
    | nil => cases hlexemes
    | cons cs m =>
      obtain ⟨rfl, hrest⟩ := List.cons.inj hlexemes
      obtain ⟨hcs, hm⟩ := List.forall_mem_cons.1 hm
      have hbracket := not_isBracket hopening hclosing
      rw [List.cons_append, scan_plain (classify_of_isLexeme hcs hbracket)] at h
      obtain ⟨ys, hys⟩ := exists_of_map_eq_ok h
      obtain ⟨hnested, hafter⟩ := ih hm hys hrest
      exact ⟨.plain hbracket hnested, hafter⟩
  | group hx _ hy _ ihinner ih =>
    cases m with
    | nil => cases hlexemes
    | cons cs m =>
      obtain ⟨rfl, hrest⟩ := List.cons.inj hlexemes
      obtain ⟨inner, m, rfl, rfl, hclosed⟩ := lexemesFrom_eq_append hrest
      cases m with
      | nil => cases hclosed
      | cons ds m =>
        obtain ⟨rfl, rfl⟩ := List.cons.inj hclosed
        obtain ⟨hcs, hmore⟩ := List.forall_mem_cons.1 hm
        obtain ⟨hinner, hmore⟩ := List.forall_mem_append.1 hmore
        obtain ⟨hds, hlast⟩ := List.forall_mem_cons.1 hmore
        obtain ⟨b, rfl⟩ := eq_openingChar hcs hx
        obtain ⟨b', rfl⟩ := eq_closingChar hds hy
        rw [List.cons_append, List.append_assoc, List.cons_append, scan_opening] at h
        obtain ⟨_, hys⟩ := exists_of_map_eq_ok h
        obtain ⟨hnestedInner, _, _, hclosing⟩ := ihinner hinner hys rfl
        obtain rfl := eq_of_scan_closing hclosing
        rw [scan_closing] at hclosing
        obtain ⟨_, hys⟩ := exists_of_map_eq_ok hclosing
        obtain ⟨hnested, hafter⟩ := ih hlast hys rfl
        exact ⟨.group _ hnestedInner hnested, hafter⟩

/-! ## The lexemes of a stretch -/

/-- Lexemes that follow each other are made of pieces that follow each other. -/
theorem exists_pieces_of_infix {source : String} {used : List Lexeme} (h : lex source = .ok xs)
    (hused : used <:+: xs) :
    ∃ before m after, pieces source.toList = before ++ m ++ after ∧
      used = lexemesFrom (byteSize before.flatten) m := by
  obtain ⟨-, -, rfl⟩ := lex_eq_ok_iff.1 h
  obtain ⟨ys, zs, hsplit⟩ := hused
  obtain ⟨l, after, hl, hleft, -⟩ := lexemesFrom_eq_append hsplit.symm
  obtain ⟨before, m, rfl, -, rfl⟩ := lexemesFrom_eq_append hleft.symm
  rw [Nat.zero_add]
  exact ⟨before, m, after, hl, rfl⟩

/-- If their brackets pair up, they are the lexemes of the stretch that they cover. -/
theorem lex_flatten {source : String} {before after : List (List Char)}
    (h : lex source = .ok xs) (hpieces : pieces source.toList = before ++ m ++ after)
    {start : Nat} (hm : Balanced (lexemesFrom start m)) :
    lex (String.ofList m.flatten) = .ok (lexemesFrom 0 m) := by
  obtain ⟨hlexemes, -, -⟩ := lex_eq_ok_iff.1 h
  have hself : pieces m.flatten = m := pieces_flatten_of_infix ⟨before, after, hpieces.symm⟩
  have hmlexemes : ∀ cs ∈ m, IsLexeme cs := fun cs hcs => hlexemes cs (by simp [hpieces, hcs])
  rw [lex, hpieces, List.append_assoc] at h
  obtain ⟨_, _, _, hscan⟩ := scan_of_append h
  obtain ⟨hnested, -⟩ := nested_of_balanced hmlexemes hm hscan
  rw [lex_eq_ok_iff, String.toList_ofList, hself]
  exact ⟨hmlexemes, hnested, rfl⟩

/-! ## Positions in a stretch -/

theorem Consecutive.append_iff {start stop : Nat} {xs ys : List Lexeme} :
    Consecutive start (xs ++ ys) stop ↔ ∃ mid, Consecutive start xs mid ∧
    Consecutive mid ys stop := by
  induction xs generalizing start with
  | nil =>
    constructor
    · exact fun h => ⟨start, .nil, h⟩
    · rintro ⟨mid, h, hys⟩
      cases h
      exact hys
  | cons x xs ih =>
    constructor
    · intro h
      cases h with
      | cons hstart hx h =>
        obtain ⟨mid, hxs, hys⟩ := ih.1 h
        exact ⟨mid, .cons hstart hx hxs, hys⟩
    · rintro ⟨mid, h, hys⟩
      cases h with
      | cons hstart hx h => exact .cons hstart hx (ih.2 ⟨mid, h, hys⟩)

theorem Consecutive.le {start stop : Nat} (h : Consecutive start xs stop) : start ≤ stop := by
  induction h with
  | nil => exact Nat.le_refl _
  | cons _ hx _ ih => exact hx.le.trans ih

theorem Consecutive.lt {start stop : Nat} (h : Consecutive start xs stop) (hne : xs ≠ []) :
    start < stop := by
  cases h with
  | nil => exact (hne rfl).elim
  | cons _ hx h => exact hx.trans_le h.le

theorem Consecutive.start_of_head? {start stop : Nat} {x : Lexeme}
    (h : Consecutive start xs stop) (hx : xs.head? = some x) : x.start = start := by
  cases h with
  | nil => cases hx
  | cons hstart =>
    cases hx
    exact hstart

theorem Consecutive.stop_of_getLast? {start stop : Nat} {x : Lexeme}
    (h : Consecutive start xs stop) (hx : xs.getLast? = some x) : x.stop = stop := by
  obtain ⟨init, rfl⟩ := List.getLast?_eq_some_iff.1 hx
  obtain ⟨mid, -, hlast⟩ := Consecutive.append_iff.1 h
  cases hlast with
  | cons _ _ h =>
    cases h
    rfl

end Lexer

end PieChecker
