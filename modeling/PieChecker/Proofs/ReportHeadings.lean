import PieChecker.Proofs.Reporting

set_option autoImplicit false

/-!
# The heading of a report

The heading `[line:column]` of a report leads to the place that the report is about: take the
line of the text with that number and skip the columns before the given one. This is where the
span starts, or the end of the text if it starts after that. The line that is shown is this
line, with tabs as three spaces and without the white space at its end, and at least one caret
stands below it. All this holds for any display widths.

There is no report exactly if the start of the span is inside a character, or else its end is,
after it has been moved into the rest of the line. The end of a reversed span is moved to its
start.
-/

namespace PieChecker

open Text Lexer

/-! ## Boundaries -/

namespace Text

/-- The position is between characters of the text, or at one of its ends. -/
def IsBoundary (cs : List Char) (position : Nat) : Prop :=
  ∃ before after, cs = before ++ after ∧ byteSize before = position

theorem isBoundary_iff {cs : List Char} {position : Nat} :
    IsBoundary cs position ↔ (cutAt? position cs).isSome = true := by
  simp only [IsBoundary, Option.isSome_iff_exists, Prod.exists, cutAt?_eq_some_iff]

instance (cs : List Char) (position : Nat) : Decidable (IsBoundary cs position) :=
  decidable_of_iff _ isBoundary_iff.symm

/-- Of two beginnings of a text, the one with fewer bytes is the shorter one. -/
theorem isPrefix_of_byteSize_le {cs as bs : List Char} (has : as <+: cs) (hbs : bs <+: cs)
    (h : byteSize as ≤ byteSize bs) : as <+: bs := by
  rcases List.prefix_or_prefix_of_prefix has hbs with hle | ⟨more, rfl⟩
  · exact hle
  · have hmore : more = [] := by
      by_contra hne
      have hpos := byteSize_pos hne
      rw [byteSize_append] at h
      omega
    rw [hmore, List.append_nil]

/-- A position in the middle of a text is a boundary exactly if it is one of the part in the
middle. -/
theorem isBoundary_append_iff {before mid after : List Char} {n : Nat} (hn : n ≤ byteSize mid) :
    IsBoundary (before ++ mid ++ after) (byteSize before + n) ↔ IsBoundary mid n := by
  constructor
  · rintro ⟨as, bs, heq, hsize⟩
    have hbefore : before <+: before ++ mid ++ after :=
      ⟨mid ++ after, by rw [List.append_assoc]⟩
    obtain ⟨inside, rfl⟩ := isPrefix_of_byteSize_le hbefore ⟨bs, heq.symm⟩ (by omega)
    rw [List.append_assoc, List.append_assoc, List.append_cancel_left_eq] at heq
    rw [byteSize_append] at hsize
    obtain ⟨rest, rfl⟩ := isPrefix_of_byteSize_le ⟨bs, heq.symm⟩ ⟨after, rfl⟩ (by omega)
    exact ⟨inside, rest, rfl, by omega⟩
  · rintro ⟨inside, rest, rfl, rfl⟩
    exact ⟨before ++ inside, rest ++ after, by simp only [List.append_assoc],
      byteSize_append _ _⟩

end Text

namespace Report

/-! ## Lines -/

/-- The lines of a text. -/
def lines (source : List Char) : List (List Char) := source.splitOn '\n'

/-- Where the line with this number starts: behind all lines before it and their newlines. -/
def lineStart (source : List Char) (number : Nat) : Nat :=
  (((lines source).take (number - 1)).map fun line => byteSize line + 1).sum

/-- The number of a line and a column on it, both counted from one, lead to a position of the
text. -/
structure LeadsTo (source : List Char) (number column : Nat) (line : List Char)
    (position : Nat) : Prop where
  number_pos : 0 < number
  line_eq : (lines source)[number - 1]? = some line
  column_pos : 0 < column
  column_le : column ≤ line.length + 1
  position_eq : lineStart source number + byteSize (line.take (column - 1)) = position

/-- A line and a column lead to one position only. -/
theorem LeadsTo.unique {source line line' : List Char} {number column position position' : Nat}
    (h : LeadsTo source number column line position)
    (h' : LeadsTo source number column line' position') :
    position = position' := by
  have hline : line = line' := Option.some.inj (h.line_eq.symm.trans h'.line_eq)
  rw [← h.position_eq, ← h'.position_eq, hline]

theorem beq_newline_of_not_mem {cs : List Char} (h : '\n' ∉ cs) :
    ∀ c ∈ cs, (c == '\n') = false := by
  intro c hc
  rw [beq_eq_false_iff_ne]
  rintro rfl
  exact h hc

theorem lines_of_not_mem {cs : List Char} (h : '\n' ∉ cs) : lines cs = [cs] := by
  rw [lines, List.splitOn_eq_splitOnP]
  exact List.splitOnP_eq_singleton (beq_newline_of_not_mem h)

theorem lines_append_newline {first : List Char} (h : '\n' ∉ first) (cs : List Char) :
    lines (first ++ '\n' :: cs) = first :: lines cs := by
  rw [lines, List.splitOn_eq_splitOnP, lines, List.splitOn_eq_splitOnP]
  exact List.splitOnP_append_cons_of_forall_mem (beq_newline_of_not_mem h) '\n' rfl cs

/-- The first line of a text goes up to its first newline. -/
theorem head?_lines (cs : List Char) : (lines cs).head? = some (restOfLine cs) := by
  by_cases h : '\n' ∈ cs
  · obtain ⟨first, rest, rfl, hfirst⟩ := List.eq_append_cons_of_mem h
    rw [lines_append_newline hfirst, restOfLine_append_of_not_mem hfirst, restOfLine_newline,
      List.append_nil]
    rfl
  · rw [lines_of_not_mem h, restOfLine_of_not_mem h]
    rfl

theorem restOfLine_append_newline (cs ds : List Char) :
    restOfLine (cs ++ '\n' :: ds) = restOfLine cs := by
  by_cases h : '\n' ∈ cs
  · obtain ⟨first, rest, rfl, hfirst⟩ := List.eq_append_cons_of_mem h
    rw [List.append_assoc, List.cons_append, restOfLine_append_of_not_mem hfirst,
      restOfLine_append_of_not_mem hfirst, restOfLine_newline, restOfLine_newline]
  · rw [restOfLine_append_of_not_mem h, restOfLine_newline, List.append_nil,
      restOfLine_of_not_mem h]

theorem lineStart_append_newline {first : List Char} (h : '\n' ∉ first)
    (cs : List Char) (n : Nat) :
    lineStart (first ++ '\n' :: cs) (n + 2) = byteSize first + 1 + lineStart cs (n + 1) := by
  rw [lineStart, lines_append_newline h]
  rfl

/-- The line and the column that lead to the end of the first part of a text. -/
theorem leadsTo_append (text rest : List Char) :
    LeadsTo (text ++ rest) (text.count '\n' + 1) ((restOfLine text.reverse).reverse.length + 1)
      ((restOfLine text.reverse).reverse ++ restOfLine rest) (byteSize text) := by
  -- By the lines of the first part, of which the first one is split off.
  induction hlength : text.length using Nat.strong_induction_on generalizing text with
  | _ length ih =>
    have hcolumn : ∀ before : List Char, before.length + 1 ≤
        (before ++ restOfLine rest).length + 1 := by simp
    by_cases h : '\n' ∈ text
    · obtain ⟨first, more, rfl, hfirst⟩ := List.eq_append_cons_of_mem h
      have hlast : restOfLine (first ++ '\n' :: more).reverse = restOfLine more.reverse := by
        rw [List.reverse_append, List.reverse_cons, List.append_assoc]
        exact restOfLine_append_newline _ _
      have hcount : (first ++ '\n' :: more).count '\n' = more.count '\n' + 1 := by
        rw [List.count_append, List.count_eq_zero_of_not_mem hfirst, List.count_cons_self,
          Nat.zero_add]
      have hmore := ih more.length (by simp [← hlength]; omega) more rfl
      rw [hlast, hcount, List.append_assoc, List.cons_append]
      refine ⟨Nat.succ_pos _, ?_, Nat.succ_pos _, hcolumn _, ?_⟩
      · rw [lines_append_newline hfirst]
        exact hmore.line_eq
      · have hposition := hmore.position_eq
        rw [lineStart_append_newline hfirst, byteSize_append, byteSize_cons]
        have hnewline : '\n'.utf8Size = 1 := by decide
        omega
    · have hreverse : restOfLine text.reverse = text.reverse :=
        restOfLine_of_not_mem (by simpa using h)
      rw [hreverse, List.reverse_reverse, List.count_eq_zero_of_not_mem h]
      refine ⟨Nat.succ_pos _, ?_, Nat.succ_pos _, hcolumn _, ?_⟩
      · rw [← restOfLine_append_of_not_mem h, ← head?_lines, List.head?_eq_getElem?]
      · rw [Nat.add_sub_cancel, List.take_left]
        exact Nat.zero_add _

/-! ## The line that is shown -/

/-- The code points of white space. -/
def whiteSpace : List Nat :=
  [0x9, 0xA, 0xB, 0xC, 0xD, 0x20, 0x85, 0xA0, 0x1680, 0x2000, 0x2001, 0x2002, 0x2003, 0x2004,
    0x2005, 0x2006, 0x2007, 0x2008, 0x2009, 0x200A, 0x2028, 0x2029, 0x202F, 0x205F, 0x3000]

/-- Is the character white space? -/
def IsWhite (c : Char) : Prop := c.toNat ∈ whiteSpace

/-- A tab is shown as three spaces, and any other character as itself. -/
inductive Untabbed : List Char → List Char → Prop where
  | nil : Untabbed [] []
  | tab {cs ds : List Char} (h : Untabbed cs ds) :
      Untabbed ('\t' :: cs) (' ' :: ' ' :: ' ' :: ds)
  | char {c : Char} {cs ds : List Char} (hc : c ≠ '\t') (h : Untabbed cs ds) :
    Untabbed (c :: cs) (c :: ds)

/-- A line is shown without the white space at its end. -/
def ShownAs (line shown : List Char) : Prop :=
  ∃ text blanks, line = text ++ blanks ∧ (∀ c ∈ blanks, IsWhite c) ∧
    (∀ c ∈ text.getLast?, ¬ IsWhite c) ∧ Untabbed text shown

/-- The carets below a line stand under the part of it that starts at the column and has so many
bytes, and there is at least one. -/
def Underlines (width : List Char → Nat) (line : List Char) (column bytes offset carets : Nat) :
    Prop :=
  ∃ inside after before' inside', line.drop (column - 1) = inside ++ after ∧
    byteSize inside = bytes ∧ Untabbed (line.take (column - 1)) before' ∧
    Untabbed inside inside' ∧
    offset = width before' ∧ carets = max 1 (width inside')

theorem Underlines.pos {width : List Char → Nat} {line : List Char}
    {column bytes offset carets : Nat} (h : Underlines width line column bytes offset carets) :
    0 < carets := by
  obtain ⟨_, _, _, _, -, -, -, -, -, rfl⟩ := h
  exact Nat.lt_of_lt_of_le Nat.zero_lt_one (Nat.le_max_left _ _)

theorem isWhite_iff (c : Char) : IsWhite c ↔ isBlank c = true := by
  simp only [IsWhite, whiteSpace, isBlank, inIntervals, blankIntervals, List.mem_cons,
    List.not_mem_nil, or_false, List.any_cons, List.any_nil, Bool.or_false, Bool.or_eq_true,
    Bool.and_eq_true, decide_eq_true_eq]
  omega

theorem untabbed_expandTabs (cs : List Char) : Untabbed cs (expandTabs cs) := by
  induction cs with
  | nil => exact .nil
  | cons c cs ih =>
    rw [expandTabs, List.flatMap_cons, ← expandTabs]
    split
    · rename_i hc
      subst hc
      exact .tab ih
    · rename_i hc
      exact .char hc ih

theorem Untabbed.eq_expandTabs {cs ds : List Char} (h : Untabbed cs ds) :
    ds = expandTabs cs := by
  induction h with
  | nil => rfl
  | tab h ih => rw [ih]; rfl
  | char hc h ih => rw [expandTabs, List.flatMap_cons, ← expandTabs, if_neg hc, ← ih]; rfl

theorem isBlank_of_mem_expandTabs {cs : List Char} (h : ∀ c ∈ cs, isBlank c = true) :
    ∀ c ∈ expandTabs cs, isBlank c = true := by
  intro c hc
  rw [expandTabs, List.mem_flatMap] at hc
  obtain ⟨d, hd, hc⟩ := hc
  split at hc
  · have hspace : c = ' ' := by simpa using hc
    rw [hspace]
    decide
  · rw [List.mem_singleton.1 hc]
    exact h d hd

theorem getLast?_expandTabs {cs : List Char} {c : Char} (h : cs.getLast? = some c)
    (hc : c ≠ '\t') :
    (expandTabs cs).getLast? = some c := by
  obtain ⟨cs, rfl⟩ := List.getLast?_eq_some_iff.1 h
  rw [expandTabs, List.flatMap_append, List.flatMap_singleton, if_neg hc, List.getLast?_concat]

/-- Only the blanks at the end are cut off. -/
theorem trimEnd_append {cs blanks : List Char} (hblanks : ∀ c ∈ blanks, isBlank c = true)
    (hlast : ∀ c ∈ cs.getLast?, isBlank c = false) : trimEnd (cs ++ blanks) = cs := by
  rw [trimEnd, List.reverse_append,
    List.dropWhile_append_of_pos fun c hc => hblanks c (List.mem_reverse.1 hc)]
  rcases List.eq_nil_or_concat cs with rfl | ⟨cs, c, rfl⟩
  · rfl
  · rw [List.concat_eq_append] at hlast ⊢
    have hc := hlast c List.getLast?_concat
    rw [List.reverse_concat, List.dropWhile_cons_of_neg (by simp [hc]), ← List.reverse_concat,
      List.reverse_reverse]

/-- What is shown of a line does not depend on whether tabs are replaced or blanks are cut off
first. -/
theorem ShownAs.eq {line shown : List Char} (h : ShownAs line shown) :
    shown = trimEnd (expandTabs line) := by
  obtain ⟨text, blanks, rfl, hblanks, hlast, huntabbed⟩ := h
  have hexpand : expandTabs (text ++ blanks) = expandTabs text ++ expandTabs blanks :=
    List.flatMap_append
  rw [hexpand, trimEnd_append, huntabbed.eq_expandTabs]
  · exact isBlank_of_mem_expandTabs fun c hc => (isWhite_iff c).1 (hblanks c hc)
  · intro c hc
    cases hend : text.getLast? with
    | none =>
      rw [List.getLast?_eq_none_iff.1 hend] at hc
      cases hc
    | some d =>
      have hwhite := hlast d hend
      rw [isWhite_iff, Bool.not_eq_true] at hwhite
      have htab : d ≠ '\t' := fun h => by rw [h] at hwhite; exact absurd hwhite (by decide)
      rw [getLast?_expandTabs hend htab] at hc
      cases hc
      exact hwhite

theorem shownAs_trimEnd (line : List Char) : ShownAs line (trimEnd (expandTabs line)) := by
  have hsplit : line = trimEnd line ++ (line.reverse.takeWhile isBlank).reverse := by
    rw [trimEnd, ← List.reverse_append, List.takeWhile_append_dropWhile, List.reverse_reverse]
  have hshown : ShownAs line (expandTabs (trimEnd line)) := by
    refine ⟨_, _, hsplit, fun c hc => ?_, fun c hc => ?_, untabbed_expandTabs _⟩
    · exact (isWhite_iff c).2 (List.mem_takeWhile_imp (List.mem_reverse.1 hc))
    · rw [isWhite_iff, Bool.not_eq_true]
      have hhead := List.head?_dropWhile_not isBlank line.reverse
      rw [trimEnd, List.getLast?_reverse] at hc
      rw [Option.mem_def] at hc
      simpa [hc] using hhead
  rwa [← hshown.eq]

/-! ## Headings -/

/-- The lines of a report: a heading with the message, then the line that is shown, with so many
blanks and carets below it. -/
def page (number column : Nat) (shown : List Char) (offset carets : Nat) (message : String) :
    List String :=
  let margin := String.ofList (List.replicate (toString number).length ' ')
  ["[" ++ toString number ++ ":" ++ toString column ++ "] error: " ++ message,
    margin ++ " |",
    toString number ++ " | " ++ String.ofList shown,
    margin ++ " | " ++ String.ofList (List.replicate offset ' ' ++ List.replicate carets '^')]

/-- Lines as one text, each with a newline after it. -/
def printed (lines : List String) : String := String.join (lines.map (· ++ "\n"))

/-- The heading of a report: what comes before its first space. -/
def heading (report : String) : List Char := report.toList.takeWhile (· ≠ ' ')

/-- A line and a column as a heading writes them. -/
def headingOf (number column : Nat) : List Char :=
  '[' :: (Nat.toDigits 10 number ++ ':' :: (Nat.toDigits 10 column ++ [']']))

theorem not_mem_toDigits (n : Nat) {c : Char} (h : c.isDigit = false) :
    c ∉ Nat.toDigits 10 n := by
  intro hc
  rw [Nat.isDigit_of_mem_toDigits (by decide) (by decide) hc] at h
  cases h

theorem toDigits_injective : Function.Injective (Nat.toDigits 10) := by
  intro m n h
  rw [← Nat.ofDigitChars_ten_toDigits (n := m), h, Nat.ofDigitChars_ten_toDigits]

/-- A heading can be read in one way only. -/
theorem headingOf_injective {number column number' column' : Nat}
    (h : headingOf number column = headingOf number' column') : number = number' ∧
    column = column' := by
  have hcolumn : ':' ∉ Nat.toDigits 10 column ++ [']'] := by
    rw [List.mem_append, List.mem_singleton]
    exact not_or.2 ⟨not_mem_toDigits column rfl, by decide⟩
  obtain ⟨hnumber, -, hrest⟩ :=
    (List.append_cons_inj_of_notMem (not_mem_toDigits number rfl) hcolumn).1 (List.cons.inj h).2
  exact ⟨toDigits_injective hnumber, toDigits_injective (List.append_cancel_right hrest)⟩

theorem heading_page (number column : Nat) (shown : List Char) (offset carets : Nat)
    (message : String) :
    heading (printed (page number column shown offset carets message)) =
      headingOf number column := by
  have hdigits : ∀ n : Nat, (toString n).toList = Nat.toDigits 10 n :=
    fun _ => String.toList_ofList
  have hspace : ∀ c ∈ headingOf number column, decide (c ≠ ' ') = true := by
    intro c hc
    rw [decide_eq_true_eq]
    rintro rfl
    have hnumber := not_mem_toDigits number (show ' '.isDigit = false from rfl)
    have hcolumn := not_mem_toDigits column (show ' '.isDigit = false from rfl)
    simp [headingOf, hnumber, hcolumn] at hc
  have hopening : "[".toList = ['['] := rfl
  have hcolon : ":".toList = [':'] := rfl
  have hclosing : "] error: ".toList = ']' :: ' ' :: "error: ".toList := rfl
  obtain ⟨rest, hpage⟩ : ∃ rest,
      (printed (page number column shown offset carets message)).toList =
        headingOf number column ++ ' ' :: rest := by
    unfold printed page headingOf
    simp only [List.map_cons, String.join_cons, String.toList_append,
      List.append_assoc, hdigits, hopening, hcolon, hclosing, List.cons_append, List.nil_append]
    exact ⟨_, rfl⟩
  rw [heading, hpage, List.takeWhile_append_of_pos hspace, List.takeWhile_cons_of_neg (by simp),
    List.append_nil]

/-! ## Reports -/

/-- Where a report begins to underline: the start of the span, or the end of the text. -/
def startOf (source : String) (span : Span) : Nat := min span.start source.utf8ByteSize

/-- Where it ends: the end of the span, moved into the rest of the line. -/
def stopOf (source : String) (span : Span) (number : Nat) (line : List Char) : Nat :=
  max (startOf source span) (min span.stop (lineStart source.toList number + byteSize line))

theorem startOf_eq (source : String) (span : Span) :
    startOf source span = min span.start (byteSize source.toList) := by
  rw [startOf, ← utf8ByteSize_ofList, String.ofList_toList]

/-- A place is found by two cuts: at the start, and in what is left of the line. -/
theorem place?_eq (source : List Char) (span : Span) : place? source span =
    (cutAt? (min span.start (byteSize source)) source).bind fun cut =>
      (cutAt? (min (span.stop - min span.start (byteSize source)) (byteSize (restOfLine cut.2)))
        (restOfLine cut.2)).bind fun parts =>
        some ⟨cut.1.count '\n' + 1, (restOfLine cut.1.reverse).reverse, parts.1, parts.2⟩ := rfl

theorem not_isBoundary_iff {cs : List Char} {position : Nat} :
    ¬ IsBoundary cs position ↔ cutAt? position cs = none := by
  rw [isBoundary_iff, Bool.not_eq_true, Option.isSome_eq_false_iff, Option.isNone_iff_eq_none]

theorem pushn_eq_ofList (c : Char) (n : Nat) :
    "".pushn c n = String.ofList (List.replicate n c) := by
  induction n with
  | zero => rfl
  | succ n ih =>
    have hpushn : "".pushn c (n + 1) = ("".pushn c n).push c := rfl
    rw [hpushn, ih, ← String.toList_inj, String.toList_push, String.toList_ofList,
      String.toList_ofList, List.replicate_succ']

section Reports

variable (width : List Char → Nat) {source : String} {span : Span}

theorem about_of_not_isBoundary (message : String)
    (h : ¬ IsBoundary source.toList (startOf source span)) :
    about width source span message = Outcome.broken := by
  rw [not_isBoundary_iff, startOf_eq] at h
  rw [about, place?_eq, h]
  rfl

theorem render_eq_page (p : Place) (message : String) : render width p message =
    printed (page p.lineNumber p.column (trimEnd (expandTabs p.line))
      (width (expandTabs p.before)) (max 1 (width (expandTabs p.inside))) message) := by
  unfold render printed page
  simp only [pushn_eq_ofList, List.map_cons, List.map_nil, String.join_cons, String.join_nil,
    String.append_assoc, String.ofList_append, String.append_empty]
  rfl

/-- Where the start is between characters, the heading leads to it, and whether there is a
report depends on the end. -/
theorem about_of_isBoundary (message : String)
    (h : IsBoundary source.toList (startOf source span)) :
    ∃ number column line, LeadsTo source.toList number column line (startOf source span) ∧
      (¬ IsBoundary source.toList (stopOf source span number line) →
        about width source span message = Outcome.broken) ∧
      (IsBoundary source.toList (stopOf source span number line) → ∃ shown offset carets,
        ShownAs line shown ∧
        Underlines width line column (stopOf source span number line - startOf source span)
          offset carets ∧
        about width source span message =
          .ok (printed (page number column shown offset carets message))) := by
  obtain ⟨text, rest, hsource, hsize⟩ := h
  have hleads := leadsTo_append text rest
  have hcut : cutAt? (min span.start (byteSize source.toList)) source.toList =
      some (text, rest) :=
    cutAt?_eq_some_iff.2 ⟨hsource, by rw [hsize, startOf_eq]⟩
  rw [← hsource] at hleads
  have hstop : stopOf source span (text.count '\n' + 1)
      ((restOfLine text.reverse).reverse ++ restOfLine rest) =
      byteSize text + min (span.stop - byteSize text) (byteSize (restOfLine rest)) := by
    have hstart := hleads.position_eq
    rw [Nat.add_sub_cancel, List.take_left] at hstart
    rw [stopOf, ← hsize, byteSize_append]
    omega
  have hrest : source.toList = text ++ restOfLine rest ++ rest.dropWhile (· ≠ '\n') := by
    rw [hsource, List.append_assoc, restOfLine, List.takeWhile_append_dropWhile]
  have hboundary : IsBoundary source.toList (stopOf source span (text.count '\n' + 1)
      ((restOfLine text.reverse).reverse ++ restOfLine rest)) ↔
        IsBoundary (restOfLine rest)
          (min (span.stop - byteSize text) (byteSize (restOfLine rest))) := by
    rw [hstop, hrest]
    exact isBoundary_append_iff (Nat.min_le_right _ _)
  have hplace : place? source.toList span =
      (cutAt? (min (span.stop - byteSize text) (byteSize (restOfLine rest)))
        (restOfLine rest)).bind
        fun parts => some ⟨text.count '\n' + 1, (restOfLine text.reverse).reverse, parts.1,
          parts.2⟩ := by
    rw [place?_eq, hcut, ← startOf_eq, ← hsize]
    rfl
  refine ⟨_, _, _, hsize ▸ hleads, fun hbroken => ?_, fun hshown => ?_⟩
  · rw [hboundary, not_isBoundary_iff] at hbroken
    rw [about, hplace, hbroken]
    rfl
  · rw [hboundary] at hshown
    obtain ⟨inside, after, hline, hinside⟩ := hshown
    have hparts := cutAt?_eq_some_iff.2 ⟨hline, hinside⟩
    refine ⟨_, _, _, shownAs_trimEnd _, ⟨inside, after, _, _, ?_, ?_, untabbed_expandTabs _,
      untabbed_expandTabs _, rfl, rfl⟩, ?_⟩
    · rw [Nat.add_sub_cancel, List.drop_left, hline]
    · rw [hstop, ← hsize, hinside, Nat.add_sub_cancel_left]
    · rw [about, hplace, hparts]
      dsimp only [Option.bind_some]
      rw [render_eq_page, Place.line, List.append_assoc, ← hline, Nat.add_sub_cancel,
        List.take_left]
      rfl

theorem leadsTo_of_about {message report : String}
    (h : about width source span message = .ok report) :
    ∃ number column line, LeadsTo source.toList number column line (startOf source span) ∧
      heading report = headingOf number column := by
  by_cases hstart : IsBoundary source.toList (startOf source span)
  · obtain ⟨number, column, line, hleads, hbroken, hshown⟩ :=
      about_of_isBoundary width message hstart
    by_cases hstop : IsBoundary source.toList (stopOf source span number line)
    · obtain ⟨shown, offset, carets, -, -, hreport⟩ := hshown hstop
      rw [h, Except.ok.injEq] at hreport
      exact ⟨number, column, line, hleads, by rw [hreport, heading_page]⟩
    · rw [hbroken hstop] at h
      cases h
  · rw [about_of_not_isBoundary width message hstart] at h
    cases h

end Reports

/-- The heading of a report leads to the start of its span, the line that is shown is the one it
names, with tabs as three spaces and without the white space at its end, and there is at least
one caret. There is no report exactly if the start, or else the end in the rest of the line, is
inside a character. Reports about different starts have different headings. -/
theorem headings_locate (width : List Char → Nat) (source : String) :
    (∀ span message, ¬ IsBoundary source.toList (startOf source span) →
      about width source span message = Outcome.broken) ∧
    (∀ span message, IsBoundary source.toList (startOf source span) →
      ∃ number column line, LeadsTo source.toList number column line (startOf source span) ∧
        (¬ IsBoundary source.toList (stopOf source span number line) →
          about width source span message = Outcome.broken) ∧
        (IsBoundary source.toList (stopOf source span number line) → ∃ shown offset carets,
          ShownAs line shown ∧ 0 < carets ∧
          Underlines width line column (stopOf source span number line - startOf source span)
            offset carets ∧
          about width source span message =
            .ok (printed (page number column shown offset carets message)))) ∧
    ∀ span span' message message' report report', about width source span message = .ok report →
      about width source span' message' = .ok report' →
      startOf source span ≠ startOf source span' → heading report ≠ heading report' := by
  refine ⟨fun _ => about_of_not_isBoundary width, fun span message h => ?_, ?_⟩
  · obtain ⟨number, column, line, hleads, hbroken, hshown⟩ :=
      about_of_isBoundary width message h
    refine ⟨number, column, line, hleads, hbroken, fun hstop => ?_⟩
    obtain ⟨shown, offset, carets, hshown, hcarets, hreport⟩ := hshown hstop
    exact ⟨shown, offset, carets, hshown, hcarets.pos, hcarets, hreport⟩
  · intro span span' message message' report report' h h' hne heq
    obtain ⟨number, column, line, hleads, hheading⟩ := leadsTo_of_about width h
    obtain ⟨number', column', line', hleads', hheading'⟩ := leadsTo_of_about width h'
    obtain ⟨rfl, rfl⟩ := headingOf_injective (hheading.symm.trans (heq.trans hheading'))
    exact hne (hleads.unique hleads')

/-- Two lines, the first one with a character of two bytes, the second one with a tab before the
name that is reported and white space at its end: a start and an end inside of the character,
the report of the name, and a reversed span. -/
theorem headings_locate_lambda :
    let source := "(λ (x)\n\tx) \t"
    let report := "[2:2] error: unbound\n  |\n2 |    x)\n  |    ^\n"
    (¬ IsBoundary source.toList 2 ∧ about Text.width source ⟨2, 5⟩ "start" = Outcome.broken) ∧
      (IsBoundary source.toList 0 ∧ about Text.width source ⟨0, 2⟩ "end" = Outcome.broken) ∧
      (IsBoundary source.toList 9 ∧ about Text.width source ⟨9, 10⟩ "unbound" = .ok report ∧
        LeadsTo source.toList 2 2 "\tx) \t".toList 9 ∧
        ShownAs "\tx) \t".toList "   x)".toList) ∧
      ∃ report', about Text.width source ⟨3, 0⟩ "first" = .ok report' ∧
        heading report ≠ heading report' := by
  intro source report
  obtain ⟨hinside, hboundary, hdifferent⟩ := headings_locate Text.width source
  have hlines : lines source.toList = ["(λ (x)".toList, "\tx) \t".toList] := by decide +kernel
  have hend : about Text.width source ⟨0, 2⟩ "end" = Outcome.broken := by
    obtain ⟨number, column, line, hleads, hbroken, -⟩ :=
      hboundary ⟨0, 2⟩ "end" (by decide +kernel)
    have hline := hleads.line_eq
    have hzero := hleads.position_eq
    rw [hlines] at hline
    obtain rfl | rfl | hnumber : number = 1 ∨ number = 2 ∨ 2 ≤ number - 1 := by
      have hpos := hleads.number_pos
      omega
    · obtain rfl := Option.some.inj hline
      exact hbroken (by decide +kernel)
    · have hstart : lineStart source.toList 2 = 8 := by decide +kernel
      rw [hstart] at hzero
      have hle : startOf source ⟨0, 2⟩ = 0 := rfl
      omega
    · rw [List.getElem?_eq_none hnumber] at hline
      cases hline
  have hreport : about Text.width source ⟨9, 10⟩ "unbound" = .ok report := by decide +kernel
  have hname : LeadsTo source.toList 2 2 "\tx) \t".toList 9 ∧
      ShownAs "\tx) \t".toList "   x)".toList := by
    obtain ⟨number, column, line, hleads, hbroken, hshown⟩ :=
      hboundary ⟨9, 10⟩ "unbound" (by decide +kernel)
    have hstop : IsBoundary source.toList (stopOf source ⟨9, 10⟩ number line) := by
      by_contra hstop
      rw [hbroken hstop] at hreport
      cases hreport
    obtain ⟨shown, offset, carets, hline, -, -, hpage⟩ := hshown hstop
    rw [hreport, Except.ok.injEq] at hpage
    have hheading : headingOf 2 2 = headingOf number column := by
      rw [← heading_page number column shown offset carets "unbound", ← hpage]
      decide +kernel
    obtain ⟨rfl, rfl⟩ := headingOf_injective hheading
    have hsecond := hleads.line_eq
    rw [hlines] at hsecond
    obtain rfl := Option.some.inj hsecond
    have hspaces : "   x)".toList = trimEnd (expandTabs "\tx) \t".toList) := by decide +kernel
    exact ⟨hleads, hspaces ▸ hline.eq ▸ hline⟩
  -- The end of a reversed span is its start.
  obtain ⟨report', hreport'⟩ : ∃ report', about Text.width source ⟨3, 0⟩ "first" =
      .ok report' := by
    have hstart : IsBoundary source.toList (startOf source ⟨3, 0⟩) := by decide +kernel
    obtain ⟨number, column, line, -, -, hshown⟩ := hboundary ⟨3, 0⟩ "first" hstart
    have hstop : stopOf source ⟨3, 0⟩ number line = startOf source ⟨3, 0⟩ := by
      rw [stopOf]
      dsimp only
      omega
    obtain ⟨shown, offset, carets, -, -, -, hreport'⟩ := hshown (hstop ▸ hstart)
    exact ⟨_, hreport'⟩
  have hstart : ¬ IsBoundary source.toList 2 := by decide +kernel
  exact ⟨⟨hstart, hinside ⟨2, 5⟩ "start" hstart⟩, ⟨by decide +kernel, hend⟩,
    ⟨by decide +kernel, hreport, hname⟩, report', hreport',
    hdifferent _ _ _ _ _ _ hreport hreport' (by decide +kernel)⟩

end Report

end PieChecker
