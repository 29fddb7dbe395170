import Mathlib.Data.List.Induction
import PieChecker.Proofs.Lexing.Splitting
import PieChecker.Text.Bytes

set_option autoImplicit false

/-!
# Classes and brackets

Which class a piece has, which pieces have none, and when the brackets among the pieces are
nested, all said without the scanner. A run of pieces can also leave brackets open; where the
run cannot go on is then the first fault of the text.

Main statement: a text has lexemes exactly when all pieces of its split have a class and the
brackets are nested. The lexemes are then these pieces, in order and without gaps, and otherwise
the error is the first fault.
-/

namespace PieChecker

/-! ## Keywords -/

theorem Keyword.mem_all (k : Keyword) : k ∈ Keyword.all := by
  cases k with
  | opener o => cases o <;> decide
  | const c => cases c <;> decide
  | unary o => cases o <;> decide
  | binary o => cases o <;> decide
  | ternary o => cases o <;> decide
  | quaternary o => cases o <;> decide
  | quant q => cases q <;> decide
  | todo | indVec | arrow | lambda | quote => decide

/-- No text spells two keywords. -/
theorem Keyword.ofSpelling?_of_mem {k : Keyword} {text : String} (h : text ∈ k.spellings) :
    ofSpelling? text = some k := by
  have hall : ∀ k ∈ Keyword.all, ∀ text ∈ k.spellings, ofSpelling? text = some k := by
    decide +kernel
  exact hall k k.mem_all text h

theorem Keyword.ofSpelling?_eq_some_iff {k : Keyword} {text : String} :
    ofSpelling? text = some k ↔ text ∈ k.spellings := by
  constructor
  · intro h
    simpa using List.find?_some h
  · exact ofSpelling?_of_mem

theorem Keyword.ofSpelling?_eq_none_iff {text : String} :
    ofSpelling? text = none ↔ ∀ k : Keyword, text ∉ k.spellings := by
  simp only [Option.eq_none_iff_forall_ne_some, ne_eq, ofSpelling?_eq_some_iff]

namespace Lexer

variable {c : Char} {cs : List Char} {l : List (List Char)} {t : Token} {fault : LexFault}
  {b : Bracket}

/-! ## Classes of pieces -/

/-- The class of a word. The spelling of a keyword is neither a number nor a name. -/
inductive WordToken (cs : List Char) : Token → Prop where
  | keyword {k : Keyword} (h : String.ofList cs ∈ k.spellings) : WordToken cs (.keyword k)
  | number (hk : ∀ k : Keyword, String.ofList cs ∉ k.spellings)
      (h : ∀ c ∈ cs, isDigit c = true) : WordToken cs .number
  | name (hk : ∀ k : Keyword, String.ofList cs ∉ k.spellings)
      (hstart : ∀ c, cs.head? = some c → isDigit c = false)
    (h : ∀ c ∈ cs, isReserved c = false) : WordToken cs .name

/-- The class of a piece. -/
inductive HasToken : List Char → Token → Prop where
  | blank {cs : List Char} (h : IsBlankRun cs) : HasToken cs .blank
  | comment {cs : List Char} (h : IsComment cs) : HasToken cs .blank
  | opening (b : Bracket) : HasToken [b.openingChar] .opening
  | closing (b : Bracket) : HasToken [b.closingChar] .closing
  | tick : HasToken ['\''] .tick
  | word {cs : List Char} {t : Token} (hcs : IsWord cs) (h : WordToken cs t) : HasToken cs t

/-- A piece that has a class. -/
def IsLexeme (cs : List Char) : Prop := ∃ t, HasToken cs t

/-- What there is to say against a word: its first character, or else all of it. -/
inductive WordFault : List Char → LexFault → Prop where
  | unrecognizedStart {c : Char} {cs : List Char} (hc : isReserved c = true) :
    WordFault (c :: cs) (.unrecognizedStart c)
  | malformedName {c : Char} {cs : List Char} (hc : isReserved c = false) :
    WordFault (c :: cs) (.malformedName (String.ofList (c :: cs)))

/-- A word without a class, and what is wrong with it. -/
structure HasFault (cs : List Char) (fault : LexFault) : Prop where
  word : IsWord cs
  noClass : ∀ t, ¬ WordToken cs t
  fault : WordFault cs fault

theorem wordToken?_eq_some_iff (hcs : cs ≠ []) : wordToken? cs = some t ↔ WordToken cs t := by
  unfold wordToken?
  constructor
  · intro h
    split at h
    case h_1 k hk =>
      cases h
      exact .keyword (Keyword.ofSpelling?_eq_some_iff.1 hk)
    case h_2 hk =>
      have hk := Keyword.ofSpelling?_eq_none_iff.1 hk
      split at h
      case isTrue hdigits =>
        cases h
        exact .number hk (by simpa using hdigits)
      split at h
      case isFalse => cases h
      case isTrue hname =>
        cases h
        simp only [isName, Bool.and_eq_true, Bool.not_eq_true', Option.any_eq_false,
          List.any_eq_false, Bool.not_eq_true] at hname
        exact .name hk hname.1 hname.2
  · intro h
    cases h with
    | keyword h => rw [Keyword.ofSpelling?_of_mem h]
    | number hk h =>
      rw [Keyword.ofSpelling?_eq_none_iff.2 hk]
      simp [List.all_eq_true.2 h]
    | name hk hstart h =>
      obtain ⟨c, cs, rfl⟩ := List.exists_cons_of_ne_nil hcs
      have hc := hstart c rfl
      rw [Keyword.ofSpelling?_eq_none_iff.2 hk]
      simp_all [isName]

/-! ## The scanner's view of a piece -/

/-- A single bracket of either kind. -/
def IsBracket (cs : List Char) : Prop := ∃ b : Bracket, cs = [b.openingChar] ∨
  cs = [b.closingChar]

/-- The class of a piece that has one. -/
def tokenOf (cs : List Char) : Token :=
  match classify cs with
  | .plain t => t
  | .opening _ => .opening
  | .closing _ => .closing
  | .bad _ => .blank

theorem classify_openingChar (b : Bracket) : classify [b.openingChar] = .opening b := by
  cases b <;> rfl

theorem classify_closingChar (b : Bracket) : classify [b.closingChar] = .closing b := by
  cases b <;> rfl

theorem classify_of_isBlankRun (h : IsBlankRun cs) : classify cs = .plain .blank := by
  obtain ⟨c, cs, rfl⟩ := List.exists_cons_of_ne_nil h.1
  simp [classify, h.2 c List.mem_cons_self]

theorem classify_of_isComment (h : IsComment cs) : classify cs = .plain .blank := by
  obtain ⟨line, -, rfl | rfl⟩ := h <;> simp [classify]

theorem classify_of_isWord (h : IsWord (c :: cs)) :
    classify (c :: cs) = ((wordToken? (c :: cs)).map .plain).getD
      (.bad (if isReserved c then .unrecognizedStart c else .malformedName
        (String.ofList (c :: cs)))) := by
  have hc := h.2 c List.mem_cons_self
  simp only [isDelimiter, Bool.or_eq_false_iff, decide_eq_false_iff_not] at hc
  obtain ⟨⟨⟨⟨⟨⟨hblank, hc₁⟩, hc₂⟩, hc₃⟩, hc₄⟩, hc₅⟩, hc₆⟩ := hc
  simp only [classify, hblank, hc₁, hc₂, hc₃, hc₄, hc₅, hc₆, decide_false, Bool.or_self,
    Bool.false_eq_true, if_false]
  cases wordToken? (c :: cs) <;> rfl

theorem classify_of_wordToken (hcs : IsWord cs) (h : WordToken cs t) :
    classify cs = .plain t := by
  obtain ⟨c, cs, rfl⟩ := List.exists_cons_of_ne_nil hcs.1
  rw [classify_of_isWord hcs, (wordToken?_eq_some_iff hcs.1).2 h]
  rfl

theorem classify_of_isLexeme (h : IsLexeme cs) (hb : ¬ IsBracket cs) :
    classify cs = .plain (tokenOf cs) := by
  obtain ⟨t, h⟩ := h
  unfold tokenOf
  cases h with
  | blank h => rw [classify_of_isBlankRun h]
  | comment h => rw [classify_of_isComment h]
  | opening b => exact absurd ⟨b, .inl rfl⟩ hb
  | closing b => exact absurd ⟨b, .inr rfl⟩ hb
  | tick => rfl
  | word hcs h => rw [classify_of_wordToken hcs h]

theorem classify_of_hasFault (h : HasFault cs fault) : classify cs = .bad fault := by
  have hnone : wordToken? cs = none := by
    rw [Option.eq_none_iff_forall_ne_some]
    exact fun t ht => h.noClass t ((wordToken?_eq_some_iff h.word.1).1 ht)
  cases h.fault with
  | unrecognizedStart hc => simp [classify_of_isWord h.word, hnone, hc]
  | malformedName hc => simp [classify_of_isWord h.word, hnone, hc]

/-- A piece is a bracket, or has a class, or is a word with a fault. -/
theorem IsPiece.kinds (h : IsPiece cs) : (∃ b : Bracket, cs = [b.openingChar]) ∨
    (∃ b : Bracket, cs = [b.closingChar]) ∨
    (IsLexeme cs ∧ ¬ IsBracket cs) ∨ ∃ fault, HasFault cs fault := by
  by_cases hb : IsBracket cs
  case pos =>
    obtain ⟨b, hb | hb⟩ := hb
    · exact .inl ⟨b, hb⟩
    · exact .inr (.inl ⟨b, hb⟩)
  refine .inr (.inr ?_)
  cases h with
  | blank h => exact .inl ⟨⟨_, .blank h⟩, hb⟩
  | comment h => exact .inl ⟨⟨_, .comment h⟩, hb⟩
  | opening b => exact .inl ⟨⟨_, .opening b⟩, hb⟩
  | closing b => exact .inl ⟨⟨_, .closing b⟩, hb⟩
  | tick => exact .inl ⟨⟨_, .tick⟩, hb⟩
  | word h =>
    by_cases htoken : ∃ t, WordToken cs t
    case pos =>
      obtain ⟨t, ht⟩ := htoken
      exact .inl ⟨⟨t, .word h ht⟩, hb⟩
    obtain ⟨c, cs, rfl⟩ := List.exists_cons_of_ne_nil h.1
    cases hc : isReserved c with
    | true => exact .inr ⟨_, h, fun t ht => htoken ⟨t, ht⟩, .unrecognizedStart hc⟩
    | false => exact .inr ⟨_, h, fun t ht => htoken ⟨t, ht⟩, .malformedName hc⟩

/-- A piece has one class at most. -/
theorem tokenOf_of_hasToken (h : HasToken cs t) : tokenOf cs = t := by
  unfold tokenOf
  cases h with
  | blank h => rw [classify_of_isBlankRun h]
  | comment h => rw [classify_of_isComment h]
  | opening b => rw [classify_openingChar]
  | closing b => rw [classify_closingChar]
  | tick => rfl
  | word hcs h => rw [classify_of_wordToken hcs h]

/-! ## Positions -/

theorem utf8ByteSize_ofList (cs : List Char) :
    (String.ofList cs).utf8ByteSize = Text.byteSize cs := by
  induction cs with
  | nil => rfl
  | cons c cs ih =>
    rw [String.ofList_cons, String.utf8ByteSize_append, String.utf8ByteSize_singleton, ih]
    rfl

@[simp] theorem byteSize_nil : Text.byteSize [] = 0 := rfl

@[simp] theorem byteSize_cons (c : Char) (cs : List Char) :
    Text.byteSize (c :: cs) = c.utf8Size + Text.byteSize cs := rfl

@[simp] theorem byteSize_append (cs ds : List Char) :
    Text.byteSize (cs ++ ds) = Text.byteSize cs + Text.byteSize ds := by
  induction cs with
  | nil => simp
  | cons c cs ih => simp [ih, Nat.add_assoc]

theorem byteSize_pos (h : cs ≠ []) : 0 < Text.byteSize cs := by
  obtain ⟨c, cs, rfl⟩ := List.exists_cons_of_ne_nil h
  have := c.utf8Size_pos
  rw [byteSize_cons]
  omega

/-- The pieces as lexemes, the first of which starts at `position`. -/
def lexemesFrom (position : Nat) : List (List Char) → List Lexeme
  | [] => []
  | cs :: l =>
    ⟨tokenOf cs, position, String.ofList cs⟩ :: lexemesFrom (position + Text.byteSize cs) l

theorem lexemesFrom_append (position : Nat) (l m : List (List Char)) :
    lexemesFrom position (l ++ m) =
    lexemesFrom position l ++ lexemesFrom (position + Text.byteSize l.flatten) m := by
  induction l generalizing position with
  | nil => rfl
  | cons cs l ih => simp [lexemesFrom, ih, Nat.add_assoc]

/-! ## Nested brackets -/

/-- Every bracket among the pieces has its partner, and what lies between the two is nested. -/
inductive Nested : List (List Char) → Prop where
  | nil : Nested []
  | plain {cs : List Char} {l : List (List Char)} (hcs : ¬ IsBracket cs) (hl : Nested l) :
      Nested (cs :: l)
  | group (b : Bracket) {inner l : List (List Char)} (hinner : Nested inner) (hl : Nested l) :
    Nested ([b.openingChar] :: (inner ++ [b.closingChar] :: l))

/-- The pieces leave these brackets open, the innermost one first, each with its position.
Everything else is nested. -/
inductive LeavesOpen : List (List Char) → List (Bracket × Nat) → Prop where
  | none {l : List (List Char)} (h : Nested l) : LeavesOpen l []
  | some {l inner : List (List Char)} {os : List (Bracket × Nat)} {b : Bracket}
      (h : LeavesOpen l os)
    (hinner : Nested inner) : LeavesOpen (l ++ [b.openingChar] :: inner)
      ((b, Text.byteSize l.flatten) :: os)

theorem Nested.append {m : List (List Char)} (h : Nested l) (hm : Nested m) :
    Nested (l ++ m) := by
  induction h with
  | nil => exact hm
  | plain hcs _ ih => exact .plain hcs ih
  | group b hinner _ _ ih => simpa using .group b hinner ih

variable {os : List (Bracket × Nat)}

theorem LeavesOpen.append {m : List (List Char)} (h : LeavesOpen l os) (hm : Nested m) :
    LeavesOpen (l ++ m) os := by
  cases h with
  | none h => exact .none (h.append hm)
  | some h hinner => simpa using LeavesOpen.some h (hinner.append hm)

/-- An opening bracket is the new innermost one. -/
theorem LeavesOpen.opening (h : LeavesOpen l os) (b : Bracket) :
    LeavesOpen (l ++ [[b.openingChar]]) ((b, Text.byteSize l.flatten) :: os) :=
  .some h .nil

/-- A closing bracket may only close the innermost one. -/
theorem LeavesOpen.closing {start : Nat} (h : LeavesOpen l ((b, start) :: os)) :
    LeavesOpen (l ++ [[b.closingChar]]) os := by
  cases h with
  | @some l inner _ _ h hinner => simpa using h.append (.group b hinner .nil)

/-! ## The first fault -/

/-- A run of lexemes that closes no bracket wrongly, and leaves the given ones open. -/
structure Readable (l : List (List Char)) (os : List (Bracket × Nat)) : Prop where
  lexemes : ∀ cs ∈ l, IsLexeme cs
  leavesOpen : LeavesOpen l os

/-- The piece cannot follow while these brackets are open: it has no class, or it closes
anything but the innermost one. -/
inductive Blocked (os : List (Bracket × Nat)) : List Char → LexFault → Prop where
  | word {cs : List Char} {fault : LexFault} (h : HasFault cs fault) : Blocked os cs fault
  | mismatched {b : Bracket} (h : ∀ start, os.head? ≠ some (b, start)) :
    Blocked os [b.closingChar] (.mismatchedBracket b)

/-- The first fault of the pieces from the left, and its position. -/
inductive FirstFault : List (List Char) → LexError → Prop where
  | piece {before after : List (List Char)} {cs : List Char} {os : List (Bracket × Nat)}
      {fault : LexFault}
    (hbefore : Readable before os) (hcs : Blocked os cs fault) :
    FirstFault (before ++ cs :: after) ⟨Text.byteSize before.flatten, fault⟩
  | unclosed {l : List (List Char)} {b : Bracket} {start : Nat} {os : List (Bracket × Nat)}
    (h : Readable l ((b, start) :: os)) : FirstFault l ⟨start, .unclosedBracket b⟩

theorem Readable.append {m : List (List Char)} {os' : List (Bracket × Nat)} (h : Readable l os)
    (hm : ∀ cs ∈ m, IsLexeme cs) (hopen : LeavesOpen (l ++ m) os') : Readable (l ++ m) os' :=
  ⟨fun cs hcs => (List.mem_append.1 hcs).elim (h.lexemes cs) (hm cs), hopen⟩

/-- A run of lexemes can be continued by one piece more, or is blocked by it. -/
theorem Readable.step (h : Readable l os) (hcs : IsPiece cs) :
    (∃ os', Readable (l ++ [cs]) os') ∨ ∃ fault, Blocked os cs fault := by
  obtain ⟨b, rfl⟩ | ⟨b, rfl⟩ | ⟨htoken, hb⟩ | ⟨fault, hfault⟩ := hcs.kinds
  · have hb : IsLexeme [b.openingChar] := ⟨_, .opening b⟩
    exact .inl ⟨_, h.append (by simpa using hb) (h.leavesOpen.opening b)⟩
  · by_cases hinnermost : ∃ start, os.head? = some (b, start)
    · obtain ⟨start, hinnermost⟩ := hinnermost
      obtain ⟨os, rfl⟩ := List.head?_eq_some_iff.1 hinnermost
      have hb : IsLexeme [b.closingChar] := ⟨_, .closing b⟩
      exact .inl ⟨_, h.append (by simpa using hb) h.leavesOpen.closing⟩
    · exact .inr ⟨_, .mismatched (not_exists.1 hinnermost)⟩
  · exact .inl ⟨_, h.append (by simpa using htoken) (h.leavesOpen.append (.plain hb .nil))⟩
  · exact .inr ⟨_, .word hfault⟩

/-- Pieces can all be read, or one of them is the first that cannot. -/
theorem readable_or_blocked (hl : ∀ cs ∈ l, IsPiece cs) : (∃ os, Readable l os) ∨
    ∃ before cs after os fault, l = before ++ cs :: after ∧ Readable before os ∧
    Blocked os cs fault := by
  induction l using List.reverseRecOn with
  | nil => exact .inl ⟨[], fun _ h => absurd h List.not_mem_nil, .none .nil⟩
  | append_singleton l cs ih =>
    obtain ⟨os, h⟩ | ⟨before, ds, after, os, fault, rfl, h, hds⟩ :=
      ih fun ds hds => hl ds (List.mem_append_left _ hds)
    · obtain h' | ⟨fault, hcs⟩ := h.step (hl cs (by simp))
      · exact .inl h'
      · exact .inr ⟨l, cs, [], os, fault, rfl, h, hcs⟩
    · exact .inr ⟨before, ds, after ++ [cs], os, fault, by simp, h, hds⟩

/-- Either everything is a lexeme and nested, or there is a first fault. -/
theorem nested_or_firstFault (hl : ∀ cs ∈ l, IsPiece cs) :
    ((∀ cs ∈ l, IsLexeme cs) ∧ Nested l) ∨ ∃ e, FirstFault l e := by
  obtain ⟨os, h⟩ | ⟨before, cs, after, os, fault, rfl, h, hcs⟩ := readable_or_blocked hl
  · obtain ⟨hlexemes, hopen⟩ := h
    cases hopen with
    | none hnested => exact .inl ⟨hlexemes, hnested⟩
    | some hopen hinner => exact .inr ⟨_, .unclosed ⟨hlexemes, .some hopen hinner⟩⟩
  · exact .inr ⟨_, .piece h hcs⟩

/-! ## The scanner -/

variable {position : Nat}

theorem scan_plain (h : classify cs = .plain t) : scan position os (cs :: l) =
    (⟨t, position, String.ofList cs⟩ :: ·) <$> scan (position + Text.byteSize cs) os l := by
  simp [scan, h, utf8ByteSize_ofList]

theorem scan_opening (b : Bracket) : scan position os ([b.openingChar] :: l) =
    (⟨.opening, position, String.ofList [b.openingChar]⟩ :: ·) <$>
      scan (position + Text.byteSize [b.openingChar]) ((b, position) :: os) l := by
  simp [scan, classify_openingChar, ← utf8ByteSize_ofList]

theorem scan_closing (b : Bracket) (start : Nat) :
    scan position ((b, start) :: os) ([b.closingChar] :: l) =
      (⟨.closing, position, String.ofList [b.closingChar]⟩ :: ·) <$>
      scan (position + Text.byteSize [b.closingChar]) os l := by
  simp [scan, classify_closingChar, ← utf8ByteSize_ofList]

theorem scan_blocked (h : Blocked os cs fault) :
    scan position os (cs :: l) = .error ⟨position, fault⟩ := by
  cases h with
  | word h => simp [scan, classify_of_hasFault h]
  | @mismatched b h =>
    cases os with
    | nil => simp [scan, classify_closingChar]
    | cons o os =>
      obtain ⟨b', start⟩ := o
      have hb : b' ≠ b := fun heq => h start (by simp [heq])
      simp [scan, classify_closingChar, hb]

/-- Nested pieces are read whatever is open around them, and leave that as it is. -/
theorem scan_nested (h : Nested l) (hl : ∀ cs ∈ l, IsLexeme cs) (position : Nat)
    (os : List (Bracket × Nat)) (rest : List (List Char)) : scan position os (l ++ rest) =
      (lexemesFrom position l ++ ·) <$> scan (position + Text.byteSize l.flatten) os rest := by
  induction h generalizing position os rest with
  | nil => simp [lexemesFrom]
  | @plain cs l hcs _ ih =>
    obtain ⟨hlexeme, hl⟩ := List.forall_mem_cons.1 hl
    rw [List.cons_append, scan_plain (classify_of_isLexeme hlexeme hcs), ih hl]
    simp [lexemesFrom, Nat.add_assoc]
  | @group b inner l _ _ ihinner ih =>
    have hinner : ∀ cs ∈ inner, IsLexeme cs := fun cs hcs => hl cs (by simp [hcs])
    have hrest : ∀ cs ∈ l, IsLexeme cs := fun cs hcs => hl cs (by simp [hcs])
    rw [List.cons_append, List.append_assoc, List.cons_append, scan_opening, ihinner hinner,
      scan_closing, ih hrest]
    simp [lexemesFrom, lexemesFrom_append, Nat.add_assoc, tokenOf, classify_openingChar,
      classify_closingChar]

/-- What can be read is read, and the open brackets are then on the stack. -/
theorem scan_readable (h : Readable l os) (rest : List (List Char)) :
    scan 0 [] (l ++ rest) = (lexemesFrom 0 l ++ ·) <$> scan (Text.byteSize l.flatten)
      os rest := by
  obtain ⟨hl, hopen⟩ := h
  induction hopen generalizing rest with
  | none h => simpa using scan_nested h hl 0 [] rest
  | @some l inner os b _ hinner ih =>
    rw [List.append_assoc, ih _ fun cs hcs => hl cs (by simp [hcs]), List.cons_append,
      scan_opening, scan_nested hinner fun cs hcs => hl cs (by simp [hcs])]
    simp [lexemesFrom, lexemesFrom_append, Nat.add_assoc, tokenOf, classify_openingChar]

theorem scan_firstFault {e : LexError} (h : FirstFault l e) : scan 0 [] l = .error e := by
  cases h with
  | piece hbefore hcs =>
    rw [scan_readable hbefore, scan_blocked hcs]
    rfl
  | unclosed h =>
    have hscan := scan_readable h []
    rw [List.append_nil] at hscan
    rw [hscan]
    rfl

theorem scan_of_nested (hl : ∀ cs ∈ l, IsLexeme cs) (h : Nested l) :
    scan 0 [] l = .ok (lexemesFrom 0 l) := by
  have hscan := scan_nested h hl 0 [] []
  rw [List.append_nil] at hscan
  simp [hscan, scan]

/-! ## The lexemes of a text -/

/-- The lexemes start at the first position and end at the second, without gaps, and none of
them is empty. -/
inductive Consecutive : Nat → List Lexeme → Nat → Prop where
  | nil {position : Nat} : Consecutive position [] position
  | cons {position stop : Nat} {x : Lexeme} {xs : List Lexeme} (hstart : x.start = position)
      (hx : position < x.stop)
    (h : Consecutive x.stop xs stop) : Consecutive position (x :: xs) stop

theorem Consecutive.start_le {position stop : Nat} {xs : List Lexeme}
    (h : Consecutive position xs stop) :
    ∀ x ∈ xs, position ≤ x.start := by
  induction h with
  | nil => exact nofun
  | cons hstart hx _ ih =>
    refine List.forall_mem_cons.2 ⟨hstart.ge, fun y hy => ?_⟩
    exact hx.le.trans (ih y hy)

/-- Of two lexemes, the later one starts later. -/
theorem Consecutive.pairwise_start {position stop : Nat} {xs : List Lexeme}
    (h : Consecutive position xs stop) :
    xs.Pairwise fun x y => x.start < y.start := by
  induction h with
  | nil => exact .nil
  | cons hstart hx h ih =>
    refine .cons (fun y hy => ?_) ih
    exact hstart ▸ hx.trans_le (h.start_le y hy)

/-- The lexemes of a text with the given split. -/
structure Lexed (source : String) (l : List (List Char)) (xs : List Lexeme) : Prop where
  texts : xs.map (·.text.toList) = l
  consecutive : Consecutive 0 xs source.utf8ByteSize
  /-- Every lexeme is a slice of the text, cut between characters. -/
  slices : ∀ x ∈ xs, ∃ before after, source = before ++ x.text ++ after ∧
    before.utf8ByteSize = x.start
  classes : ∀ x ∈ xs, ∀ t, HasToken x.text.toList t ↔ t = x.token

theorem texts_lexemesFrom (position : Nat) (l : List (List Char)) :
    (lexemesFrom position l).map (·.text.toList) = l := by
  induction l generalizing position with
  | nil => rfl
  | cons cs l ih => simp [lexemesFrom, ih]

theorem consecutive_lexemesFrom (position : Nat) (hl : ∀ cs ∈ l, cs ≠ []) :
    Consecutive position (lexemesFrom position l) (position + Text.byteSize l.flatten) := by
  induction l generalizing position with
  | nil => exact .nil
  | cons cs l ih =>
    obtain ⟨hcs, hl⟩ := List.forall_mem_cons.1 hl
    have hpos := byteSize_pos hcs
    rw [List.flatten_cons, byteSize_append, ← Nat.add_assoc]
    have hstop : (Lexeme.mk (tokenOf cs) position (String.ofList cs)).stop =
        position + Text.byteSize cs := by
      rw [Lexeme.stop, utf8ByteSize_ofList]
    refine .cons rfl ?_ ?_
    · rw [hstop]
      omega
    · rw [hstop]
      exact ih _ hl

theorem exists_of_mem_lexemesFrom {x : Lexeme} (h : x ∈ lexemesFrom position l) :
    ∃ before cs after, l = before ++ cs :: after ∧
    x = ⟨tokenOf cs, position + Text.byteSize before.flatten, String.ofList cs⟩ := by
  induction l generalizing position with
  | nil => cases h
  | cons cs l ih =>
    obtain rfl | h := List.mem_cons.1 h
    · exact ⟨[], cs, l, rfl, rfl⟩
    · obtain ⟨before, ds, after, rfl, rfl⟩ := ih h
      exact ⟨cs :: before, ds, after, rfl, by simp [Nat.add_assoc]⟩

theorem lexed_lexemesFrom {source : String} (hl : l.flatten = source.toList)
    (hlexemes : ∀ cs ∈ l, IsLexeme cs) (hpieces : ∀ cs ∈ l, IsPiece cs) :
    Lexed source l (lexemesFrom 0 l) where
  texts := texts_lexemesFrom 0 l
  consecutive := by
    have h := consecutive_lexemesFrom 0 fun cs hcs => (hpieces cs hcs).ne_nil
    rwa [Nat.zero_add, ← utf8ByteSize_ofList, hl, String.ofList_toList] at h
  slices x hx := by
    obtain ⟨before, cs, after, rfl, rfl⟩ := exists_of_mem_lexemesFrom hx
    refine ⟨String.ofList before.flatten, String.ofList after.flatten, ?_, ?_⟩
    · apply String.toList_inj.1
      simp [← hl]
    · rw [utf8ByteSize_ofList, Nat.zero_add]
  classes x hx t := by
    obtain ⟨before, cs, after, rfl, rfl⟩ := exists_of_mem_lexemesFrom hx
    rw [String.toList_ofList]
    constructor
    · exact fun h => (tokenOf_of_hasToken h).symm
    · rintro rfl
      obtain ⟨t, h⟩ := hlexemes cs (by simp)
      rwa [tokenOf_of_hasToken h]

/-- The two outcomes of reading a text, by the pieces of its split. -/
theorem lex_outcome (source : String) :
    ((∀ cs ∈ pieces source.toList, IsLexeme cs) ∧ Nested (pieces source.toList) ∧
      lex source = .ok (lexemesFrom 0 (pieces source.toList))) ∨
    ∃ e, FirstFault (pieces source.toList) e ∧ lex source = .error e := by
  obtain ⟨hlexemes, hnested⟩ | ⟨e, hfault⟩ :=
    nested_or_firstFault fun _ => isPiece_of_mem_pieces
  · exact .inl ⟨hlexemes, hnested, scan_of_nested hlexemes hnested⟩
  · exact .inr ⟨e, hfault, scan_firstFault hfault⟩

theorem lex_eq_ok_iff {source : String} {xs : List Lexeme} : lex source = .ok xs ↔
    (∀ cs ∈ pieces source.toList, IsLexeme cs) ∧ Nested (pieces source.toList) ∧
      lexemesFrom 0 (pieces source.toList) = xs := by
  constructor
  · intro h
    obtain ⟨hlexemes, hnested, hok⟩ | ⟨e, -, herror⟩ := lex_outcome source
    · exact ⟨hlexemes, hnested, by simpa [hok] using h⟩
    · cases herror.symm.trans h
  · rintro ⟨hlexemes, hnested, rfl⟩
    exact scan_of_nested hlexemes hnested

theorem pairwise_start_of_lex {source : String} {xs : List Lexeme} (h : lex source = .ok xs) :
    xs.Pairwise fun x y => x.start < y.start := by
  obtain ⟨hlexemes, -, rfl⟩ := lex_eq_ok_iff.1 h
  exact (lexed_lexemesFrom (flatten_pieces _) hlexemes fun _ =>
    isPiece_of_mem_pieces).consecutive.pairwise_start

theorem lex_eq_error_iff {source : String} {e : LexError} :
    lex source = .error e ↔ FirstFault (pieces source.toList) e := by
  constructor
  · intro h
    obtain ⟨-, -, hok⟩ | ⟨e', hfault, herror⟩ := lex_outcome source
    · cases hok.symm.trans h
    · cases herror.symm.trans h
      exact hfault
  · exact scan_firstFault

end Lexer

/-- A text splits by longest match in one way. It has lexemes exactly when all pieces of that
split have a class and the brackets among them are nested, and they are then these pieces.
Otherwise the error is the first fault. -/
theorem lex_exact (source : String) : ∃ l, (∀ m, Lexer.Splits source.toList m ↔ m = l) ∧
    ((∃ xs, lex source = .ok xs) ↔ (∀ cs ∈ l, Lexer.IsLexeme cs) ∧ Lexer.Nested l) ∧
    (∀ xs, lex source = .ok xs → Lexer.Lexed source l xs) ∧
    ∀ e, lex source = .error e ↔ Lexer.FirstFault l e := by
  refine ⟨Lexer.pieces source.toList, fun _ => Lexer.splits_iff, ⟨?_, ?_⟩, ?_, fun e =>
    Lexer.lex_eq_error_iff⟩
  · rintro ⟨xs, h⟩
    obtain ⟨hlexemes, hnested, -⟩ := Lexer.lex_eq_ok_iff.1 h
    exact ⟨hlexemes, hnested⟩
  · rintro ⟨hlexemes, hnested⟩
    exact ⟨_, Lexer.lex_eq_ok_iff.2 ⟨hlexemes, hnested, rfl⟩⟩
  · intro xs h
    obtain ⟨hlexemes, -, rfl⟩ := Lexer.lex_eq_ok_iff.1 h
    exact Lexer.lexed_lexemesFrom (Lexer.flatten_pieces _) hlexemes fun _ =>
      Lexer.isPiece_of_mem_pieces

end PieChecker
