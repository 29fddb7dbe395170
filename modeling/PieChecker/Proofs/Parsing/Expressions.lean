import PieChecker.Proofs.Parsing.Readers

set_option autoImplicit false

/-!
# Reading expressions

The reader of expressions is sound and complete for the grammar of expressions. The alternatives
of the grammar are not ordered, but the lexeme after an opening bracket decides between them: a
keyword is the first lexeme of one alternative only, and no expression, so no application,
starts with such a keyword.

A bound on the nesting of brackets is enough for all derivations of at most that length.
-/

namespace PieChecker.Surface.Reader

open Grammar

/-! ## First lexemes -/

theorem startsExpression_keyword (k : Keyword) :
    startsExpression (.keyword k) = true ↔ (∃ c, k = .const c) ∨ k = .todo := by
  constructor
  · intro h
    cases k with
    | const c => exact .inl ⟨c, rfl⟩
    | todo => exact .inr rfl
    | opener o => cases o <;> cases h
    | _ => cases h
  · rintro (⟨c, rfl⟩ | rfl)
    · cases c <;> rfl
    · rfl

theorem ne_blank_of_startsExpression {token : Token} (h : startsExpression token = true) :
    token ≠ .blank := by
  rintro rfl
  cases h

theorem expression_begins : Begins startsExpression Expression := by
  intro ts e h
  cases h with
  | compound hl | tick hl | number hl | var hl => exact ⟨_, _, rfl, by rw [hl]; rfl⟩
  | const hl => exact ⟨_, _, rfl, by rw [hl, startsExpression_keyword]; exact .inl ⟨_, rfl⟩⟩
  | todo hl => exact ⟨_, _, rfl, by rw [hl, startsExpression_keyword]; exact .inr rfl⟩

theorem typedBinder_begins : Begins Expectation.opening.isMetBy TypedBinder := by
  rintro ts a ⟨hl⟩
  exact ⟨_, _, rfl, by rw [hl]; rfl⟩

theorem bindingSite_begins : Begins Expectation.name.isMetBy BindingSite := by
  rintro ts a ⟨hl⟩
  exact ⟨_, _, rfl, by rw [hl]; rfl⟩

/-- The keywords of expressions in brackets neither open a top-level form nor stand by
themselves. -/
theorem mem_compounds_iff (k : Keyword) :
    k ∈ Keyword.compounds ↔ k ∉ Keyword.openers ∧ k ∉ Keyword.atoms := by
  cases k with
  | opener o => cases o <;> decide
  | const c => cases c <;> decide
  | unary o => cases o <;> decide
  | binary o => cases o <;> decide
  | ternary o => cases o <;> decide
  | quaternary o => cases o <;> decide
  | quant q => cases q <;> decide
  | _ => decide

theorem startsExpression_of_not_mem_atoms {k : Keyword} (h : k ∉ Keyword.atoms) :
    startsExpression (.keyword k) = false := by
  rw [← Bool.not_eq_true, startsExpression_keyword]
  rintro (⟨c, rfl⟩ | rfl)
  · exact h (by cases c <;> decide)
  · exact h (by decide)

/-- What stands between brackets starts with a keyword, or it is an application. -/
theorem keyword_or_apply {s : Span} {ts : List Lexeme} {e : Expr}
    (h : Compound s ts e) :
    (∃ l used k, ts = l :: used ∧ l.token = .keyword k ∧ k ∈ Keyword.compounds) ∨
      ∃ us b vs function arguments, ts = us ++ b ++ vs ∧ e = .apply s function arguments ∧
        Expression us function ∧ Blanks b ∧ Separated Expression vs arguments := by
  cases h with
  | apply hf hb ha => exact .inr ⟨_, _, _, _, _, rfl, rfl, hf, hb, ha⟩
  | unary hk | binary hk | ternary hk | quaternary hk | indVec hk | arrow hk | quant hk
  | lambda hk
  | quote hk =>
    refine .inl ⟨_, _, _, rfl, hk, ?_⟩
    rw [mem_compounds_iff]
    simp [Keyword.openers, Keyword.atoms]

/-! ## Blanks and binders -/

/-- Blanks before what a reader reads. -/
theorem spaced_sound {α : Type} {r : Reader α} {Rule : List Lexeme → α → Prop}
    (hs : Sound r Rule) :
    Sound (do skipBlanks; r) (Spaced Rule) := by
  intro ts a rest h
  simp only [bind_eq_ok_iff, skipBlanks_eq_ok_iff] at h
  obtain ⟨_, _, rfl, h⟩ := h
  obtain ⟨b, hb, hts⟩ := exists_blanks_append_skip ts
  obtain ⟨used, hused, hrule⟩ := hs h
  exact ⟨b ++ used, by rw [hts, hused, List.append_assoc], .mk hb hrule⟩

theorem spaced_complete {α : Type} {r : Reader α} {Rule : List Lexeme → α → Prop}
    {starts : Token → Bool} {n : Nat} (hc : Complete r Rule n) (hbegins : Begins starts Rule)
    (hblank : starts .blank = false) : Complete (do skipBlanks; r) (Spaced Rule) n := by
  rintro _ a ⟨hb, h⟩ hn rest
  rw [List.length_append] at hn
  obtain ⟨l, ts, rfl, hl⟩ := hbegins h
  have hne : l.token ≠ .blank := fun h => by rw [h, hblank] at hl; cases hl
  simp only [bind_eq_ok_iff, skipBlanks_eq_ok_iff]
  refine ⟨(), _, rfl, ?_⟩
  rw [List.append_assoc, List.cons_append, skip_append_cons hb hne, ← List.cons_append]
  exact hc h (by omega) rest

section Operands

variable {operand : Reader Expr} {n : Nat}

theorem binder_sound (hs : Sound operand (Spaced Expression)) :
    Sound (binder operand) (Spaced TypedBinder) := by
  intro ts p rest h
  simp only [binder, bind_eq_ok_iff, pure_eq_ok_iff, open_eq_ok_iff, close_eq_ok_iff,
    site_eq_ok_iff] at h
  obtain ⟨l, _, ⟨b, hb, hl, rfl⟩, x, m, ⟨b', used, hb', hx, rfl⟩, ty, m', hty, stop, _,
    ⟨b'', r, hb'', hr, -, rfl⟩, rfl, rfl⟩ := h
  obtain ⟨_, rfl, ⟨hb₁, hty⟩⟩ := hs hty
  refine ⟨_, ?_, .mk hb (.mk hl hb' hx hb₁ hty hb'' hr)⟩
  simp only [List.append_assoc, List.cons_append, List.nil_append]

theorem binder_complete (hc : Complete operand (Spaced Expression) n) :
    Complete (binder operand) (Spaced TypedBinder) n := by
  rintro _ _ ⟨hb, ⟨hl, hb', hx, hb₁, hty, hb'', hr⟩⟩ hn rest
  simp only [List.length_append, List.length_cons, List.length_nil] at hn
  have hread := hc (.mk hb₁ hty) (by rw [List.length_append]; omega)
  simp only [binder, bind_eq_ok_iff, pure_eq_ok_iff, open_eq_ok_iff, close_eq_ok_iff,
    site_eq_ok_iff]
  refine ⟨_, _, ⟨_, hb, hl, ?_⟩, _, _, ⟨_, _, hb', hx, rfl⟩, _, _, hread _, _, rest,
    ⟨_, _, hb'', hr, rfl, rfl⟩, rfl, rfl⟩
  simp only [List.append_assoc, List.cons_append, List.nil_append]

/-! ## What follows a keyword -/

/-- What is read after a keyword and before the closing bracket: an expression without its
span. -/
def content (operand : Reader Expr) : Keyword → Reader (Span → Expr)
  | .unary o => do
    let a ← operand
    return (.unary · o a)
  | .binary o => do
    let a ← operand
    let b ← operand
    return (.binary · o a b)
  | .ternary o => do
    let a ← operand
    let b ← operand
    let c ← operand
    return (.ternary · o a b c)
  | .quaternary o => do
    let a ← operand
    let b ← operand
    let c ← operand
    let d ← operand
    return (.quaternary · o a b c d)
  | .indVec => do
    let length ← operand
    let target ← operand
    let motive ← operand
    let base ← operand
    let step ← operand
    return (.indVec · length target motive base step)
  | .arrow => do
    let domain ← operand
    let head ← operand
    let tail ← manyAvailable startsExpression operand
    return (.arrow · domain (head :: tail))
  | .quant q => do
    let binders ← group .opening (binder operand)
    let body ← operand
    return (.quant · q binders body)
  | .lambda => do
    let parameters ← group .name site
    let body ← operand
    return (.lambda · parameters body)
  | .quote => do
    skipBlanks
    let atom ← quoted [.blank]
    return (.quote · atom.text)
  | .opener _ | .const _ | .todo => refuse []

/-- A function and its arguments, where no keyword comes and `others` could have come too. -/
def application (expression : List Expectation → Reader Expr) (others : List Expectation) :
    Reader (Span → Expr) := do
  let function ← expression (.blank :: Keyword.compounds.map .keyword ++ others)
  let head ← (do skipBlanks; expression [.blank])
  let tail ← manyAvailable startsExpression (do skipBlanks; expression [.blank])
  return (.apply · function (head :: tail))

/-- What else than a closing bracket may come after the content of a keyword. -/
def furtherOperands : Keyword → List Expectation
  | .arrow => firsts
  | _ => []

/-- The lexemes after a keyword make an expression with it, whatever its span. -/
def Filling (k : Keyword) (used : List Lexeme) (make : Span → Expr) : Prop :=
  ∀ ⦃s : Span⦄ ⦃l : Lexeme⦄, l.token = .keyword k → Compound s (l :: used) (make s)

/-- So do these operands and then the lexemes. -/
def FillingAfter (k : Keyword) (as : List Expr) (used : List Lexeme)
    (make : Span → Expr) : Prop :=
  ∀ ⦃read : List Lexeme⦄, Series Expression read as → Filling k (read ++ used) make

section Sound

variable {k : Keyword} {as : List Expr}

theorem sound_operand (hop : Sound operand (Spaced Expression))
    {f : Expr → Reader (Span → Expr)} (hf : ∀ a, Sound (f a) (FillingAfter k (as ++ [a]))) :
    Sound (operand >>= f) (FillingAfter k as) := by
  intro ts make rest hread
  obtain ⟨a, mid, ha, hmake⟩ := bind_eq_ok_iff.1 hread
  obtain ⟨used, rfl, hused⟩ := hf a hmake
  obtain ⟨_, rfl, ⟨hb, ha'⟩⟩ := hop ha
  refine ⟨_, (List.append_assoc ..).symm, fun read hread => ?_⟩
  have hfilling := hused (hread.append (.cons hb ha' .nil))
  rwa [List.append_nil, List.append_assoc] at hfilling

theorem sound_filled {make : Span → Expr}
    (h : ∀ s l ts, l.token = .keyword k → Series Expression ts as →
      Compound s (l :: ts) (make s)) :
    Sound (pure make) (FillingAfter k as) := by
  intro ts make' rest hread
  obtain ⟨rfl, rfl⟩ := pure_eq_ok_iff.1 hread
  refine ⟨[], rfl, fun read hseries s l hl => ?_⟩
  rw [List.append_nil]
  exact h s l read hl hseries

/-- All operands of a keyword are read one after the other. -/
theorem sound_operands {r : Reader (Span → Expr)} (h : Sound r (FillingAfter k [])) :
    Sound r (Trailed (Filling k)) := by
  intro ts make rest hread
  obtain ⟨used, rfl, hused⟩ := h hread
  have hfilling : Trailed (Filling k) (used ++ []) make := .mk (hused .nil) .nil
  exact ⟨used, rfl, by rwa [List.append_nil] at hfilling⟩

theorem content_sound (hop : Sound operand (Spaced Expression)) (k : Keyword) :
    Sound (content operand k) (Trailed (Filling k)) := by
  cases k with
  | opener | const | todo => exact fun _ _ _ h => (refuse_ne_ok h).elim
  | unary o =>
    exact sound_operands <| sound_operand hop fun _ => sound_filled fun _ _ _ hk h =>
      .unary hk h
  | binary o =>
    exact sound_operands <| sound_operand hop fun _ => sound_operand hop fun _ =>
      sound_filled fun _ _ _ hk h => .binary hk h
  | ternary o =>
    exact sound_operands <| sound_operand hop fun _ => sound_operand hop fun _ =>
      sound_operand hop fun _ => sound_filled fun _ _ _ hk h => .ternary hk h
  | quaternary o =>
    exact sound_operands <| sound_operand hop fun _ => sound_operand hop fun _ =>
      sound_operand hop fun _ => sound_operand hop fun _ =>
      sound_filled fun _ _ _ hk h => .quaternary hk h
  | indVec =>
    exact sound_operands <| sound_operand hop fun _ => sound_operand hop fun _ =>
      sound_operand hop fun _ => sound_operand hop fun _ => sound_operand hop fun _ =>
      sound_filled fun _ _ _ hk h => .indVec hk h
  | arrow =>
    intro ts make rest h
    simp only [content, bind_eq_ok_iff, pure_eq_ok_iff] at h
    obtain ⟨domain, m, hdomain, head, m', hhead, tail, _, htail, rfl, rfl⟩ := h
    obtain ⟨_, rfl, ⟨hb', ⟨hrest, hb''⟩⟩⟩ := items_sound hop hhead htail
    obtain ⟨_, rfl, ⟨hb, hdomain'⟩⟩ := hop hdomain
    refine ⟨_, ?_, .mk (fun s l hk => .arrow hk hb hdomain' hb' hrest) hb''⟩
    simp only [List.append_assoc]
  | quant q =>
    intro ts make rest h
    simp only [content, bind_eq_ok_iff, pure_eq_ok_iff] at h
    obtain ⟨binders, m, hbinders, body, _, hbody, rfl, rfl⟩ := h
    obtain ⟨_, rfl, ⟨hb₃, hbody'⟩⟩ := hop hbody
    obtain ⟨_, rfl, ⟨hb, ⟨hl, hb₁, hitems, hb₂, hr⟩⟩⟩ := group_sound (binder_sound hop) hbinders
    refine ⟨_, ?_, .mk (fun s l hk => .quant hk hb hl hb₁ hitems hb₂ hr hb₃ hbody') .nil⟩
    simp only [List.append_assoc, List.cons_append, List.nil_append]
  | lambda =>
    intro ts make rest h
    simp only [content, bind_eq_ok_iff, pure_eq_ok_iff] at h
    obtain ⟨sites, m, hsites, body, _, hbody, rfl, rfl⟩ := h
    obtain ⟨_, rfl, ⟨hb₃, hbody'⟩⟩ := hop hbody
    obtain ⟨_, rfl, ⟨hb, ⟨hl, hb₁, hitems, hb₂, hr⟩⟩⟩ := group_sound site_sound hsites
    refine ⟨_, ?_, .mk (fun s l hk => .lambda hk hb hl hb₁ hitems hb₂ hr hb₃ hbody') .nil⟩
    simp only [List.append_assoc, List.cons_append, List.nil_append]
  | quote =>
    intro ts make rest h
    simp only [content, bind_eq_ok_iff, pure_eq_ok_iff, skipBlanks_eq_ok_iff,
      quoted_eq_ok_iff] at h
    obtain ⟨_, _, rfl, a, _, ⟨hskip, ha⟩, rfl, rfl⟩ := h
    obtain ⟨b, hb, hts⟩ := exists_blanks_append_skip ts
    refine ⟨_, ?_, .mk (fun s l hk => .quote hk hb ha) .nil⟩
    rw [hts, hskip]
    simp only [List.append_assoc, List.cons_append, List.nil_append]

end Sound

section Complete

variable {as : List Expr} {make : Span → Expr}

/-- The reader reads these operands, up to the given length and whatever comes after them. -/
def ReadsOperands (r : Reader (Span → Expr)) (as : List Expr) (make : Span → Expr) (n : Nat) :
    Prop :=
  ∀ ⦃used : List Lexeme⦄, Series Expression used as → used.length ≤ n →
    ∀ rest, r (used ++ rest) = .ok (make, rest)

theorem reads_operand (hop : Complete operand (Spaced Expression) n)
    {f : Expr → Reader (Span → Expr)} {a : Expr} (hf : ReadsOperands (f a) as make n) :
    ReadsOperands (operand >>= f) (a :: as) make n := by
  intro used h hn rest
  obtain ⟨left, hleft, hlen, hread⟩ := hop.series_cons h hn
  exact bind_eq_ok_iff.2 ⟨a, _, hread rest, hf hleft hlen rest⟩

theorem reads_filled : ReadsOperands (pure make) [] make n := by
  rintro _ ⟨⟩ - rest
  rfl

/-- The reader reads the lexemes up to a closing bracket, and the expression that they make has
the given one as its instance. -/
def ReadsUpToClosing (r : Reader (Span → Expr)) (others : List Expectation) (used : List Lexeme)
    (s : Span) (e : Expr) : Prop :=
  ∃ make, make s = e ∧ ∀ ⦃b : List Lexeme⦄ ⦃bracket : Lexeme⦄ (rest : List Lexeme), Blanks b →
    bracket.token = .closing → ∃ mid, r (used ++ (b ++ bracket :: rest)) = .ok (make, mid) ∧
      close others mid = .ok (bracket.stop, rest)

theorem ReadsOperands.upToClosing {r : Reader (Span → Expr)} (h : ReadsOperands r as make n)
    {used : List Lexeme} (hseries : Series Expression used as) (hn : used.length ≤ n)
    (s : Span) :
    ReadsUpToClosing r [] used s (make s) :=
  ⟨make, rfl, fun _ _ _ hb hr =>
    ⟨_, h hseries hn _, close_eq_ok_iff.2 ⟨_, _, hb, hr, rfl, rfl⟩⟩⟩

theorem content_complete (hop : Complete operand (Spaced Expression) n) {k : Keyword}
    {l : Lexeme} {used : List Lexeme} {s : Span} {e : Expr} (h : Compound s (l :: used) e)
    (hl : l.token = .keyword k) (hmem : k ∈ Keyword.compounds) (hn : used.length ≤ n) :
    ReadsUpToClosing (content operand k) (furtherOperands k) used s e := by
  generalize hts : l :: used = ts at h
  cases h with
  | @unary _ _ o _ a hk h =>
    cases hts
    cases hl.symm.trans hk
    have hread : ReadsOperands (content operand (.unary o)) [a]
        (.unary · o a) n := reads_operand hop reads_filled
    exact hread.upToClosing h hn s
  | @binary _ _ o _ a b hk h =>
    cases hts
    cases hl.symm.trans hk
    have hread : ReadsOperands (content operand (.binary o)) [a, b]
        (.binary · o a b) n := reads_operand hop (reads_operand hop reads_filled)
    exact hread.upToClosing h hn s
  | @ternary _ _ o _ a b c hk h =>
    cases hts
    cases hl.symm.trans hk
    have hread : ReadsOperands (content operand (.ternary o)) [a, b, c]
        (.ternary · o a b c) n :=
      reads_operand hop (reads_operand hop (reads_operand hop reads_filled))
    exact hread.upToClosing h hn s
  | @quaternary _ _ o _ a b c d hk h =>
    cases hts
    cases hl.symm.trans hk
    have hread : ReadsOperands (content operand (.quaternary o)) [a, b, c, d]
        (.quaternary · o a b c d) n :=
      reads_operand hop (reads_operand hop (reads_operand hop (reads_operand hop reads_filled)))
    exact hread.upToClosing h hn s
  | @indVec _ _ _ length target motive base step hk h =>
    cases hts
    cases hl.symm.trans hk
    have hread : ReadsOperands (content operand .indVec) [length, target, motive, base, step]
        (.indVec · length target motive base step) n :=
      reads_operand hop (reads_operand hop
        (reads_operand hop (reads_operand hop (reads_operand hop reads_filled))))
    exact hread.upToClosing h hn s
  | arrow hk hb hdomain hb' hrest =>
    cases hts
    cases hl.symm.trans hk
    simp only [List.length_append] at hn
    obtain ⟨head, tail, rfl⟩ := List.exists_cons_of_ne_nil hrest.ne_nil
    refine ⟨(.arrow · _ (head :: tail)), rfl, fun b r rest hblanks hr => ?_⟩
    obtain ⟨_, _, m, heq, hhead, htail⟩ := items_complete hop expression_begins rfl rfl
      (.mk hb' hrest) (by rw [List.length_append]; omega) hblanks hr rest
    cases heq
    have hread := hop (.mk hb hdomain) (by rw [List.length_append]; omega)
    refine ⟨_, ?_, close_eq_ok_iff.2 ⟨[], r, .nil, hr, rfl, rfl⟩⟩
    simp only [content, bind_eq_ok_iff, pure_eq_ok_iff]
    refine ⟨_, _, ?_, head, m, hhead, tail, _, htail, rfl, rfl⟩
    rw [← hread]
    simp only [List.append_assoc]
  | quant hk hb hl' hb₁ hbinders hb₂ hr' hb₃ hbody =>
    cases hts
    cases hl.symm.trans hk
    simp only [List.length_append, List.length_cons] at hn
    have hgroup := group_complete (binder_complete hop) typedBinder_begins rfl rfl
      (.mk hb (.mk hl' hb₁ hbinders hb₂ hr'))
      (by simp only [List.length_append, List.length_cons, List.length_nil]; omega)
    have hread := hop (.mk hb₃ hbody) (by rw [List.length_append]; omega)
    refine ⟨(.quant · _ _ _), rfl, fun b r rest hblanks hr =>
      ⟨_, ?_, close_eq_ok_iff.2 ⟨b, r, hblanks, hr, rfl, rfl⟩⟩⟩
    simp only [content, bind_eq_ok_iff, pure_eq_ok_iff]
    refine ⟨_, _, ?_, _, _, hread _, rfl, rfl⟩
    rw [← hgroup]
    simp only [List.append_assoc, List.cons_append, List.nil_append]
  | lambda hk hb hl' hb₁ hsites hb₂ hr' hb₃ hbody =>
    cases hts
    cases hl.symm.trans hk
    simp only [List.length_append, List.length_cons] at hn
    have hgroup := group_complete (site_complete n) bindingSite_begins rfl rfl
      (.mk hb (.mk hl' hb₁ hsites hb₂ hr'))
      (by simp only [List.length_append, List.length_cons, List.length_nil]; omega)
    have hread := hop (.mk hb₃ hbody) (by rw [List.length_append]; omega)
    refine ⟨(.lambda · _ _), rfl, fun b r rest hblanks hr =>
      ⟨_, ?_, close_eq_ok_iff.2 ⟨b, r, hblanks, hr, rfl, rfl⟩⟩⟩
    simp only [content, bind_eq_ok_iff, pure_eq_ok_iff]
    refine ⟨_, _, ?_, _, _, hread _, rfl, rfl⟩
    rw [← hgroup]
    simp only [List.append_assoc, List.cons_append, List.nil_append]
  | quote hk hb ha =>
    cases hts
    cases hl.symm.trans hk
    refine ⟨(.quote · _), rfl, fun b r rest hblanks hr =>
      ⟨_, ?_, close_eq_ok_iff.2 ⟨b, r, hblanks, hr, rfl, rfl⟩⟩⟩
    simp only [content, bind_eq_ok_iff, pure_eq_ok_iff, skipBlanks_eq_ok_iff, quoted_eq_ok_iff,
      List.append_assoc, List.cons_append, List.nil_append]
    exact ⟨(), _, skip_append_cons hb ha.ne_blank _, _, _, ⟨rfl, ha⟩, rfl, rfl⟩
  | apply hf hb ha =>
    -- an application starts with an expression, and so not with such a keyword
    obtain ⟨l', ts, rfl, hl'⟩ := expression_begins hf
    cases hts
    rw [hl, startsExpression_of_not_mem_atoms ((mem_compounds_iff k).1 hmem).2] at hl'
    cases hl'

end Complete

end Operands

/-! ## Brackets -/

/-- What may follow the opening bracket of an expression that starts at the given position, with
the closing bracket. -/
inductive Inside (start : Nat) : List Lexeme → Expr → Prop where
  | mk {r : Lexeme} {b ts b' : List Lexeme} {e : Expr} (hb : Blanks b)
    (h : Compound ⟨start, r.stop⟩ ts e) (hb' : Blanks b') (hr : r.token = .closing) :
    Inside start (b ++ ts ++ b' ++ [r]) e

theorem Inside.spaced {start : Nat} {used b : List Lexeme} {e : Expr} (h : Inside start used e)
    (hb : Blanks b) : Inside start (b ++ used) e := by
  obtain ⟨hb₁, h, hb', hr⟩ := h
  simp only [← List.append_assoc]
  exact .mk (hb.append hb₁) h hb' hr

theorem Inside.expression {used : List Lexeme} {l : Lexeme} {e : Expr}
    (h : Inside l.start used e) (hl : l.token = .opening) : Expression (l :: used) e := by
  obtain ⟨hb, h, hb', hr⟩ := h
  exact .compound hl hb h hb' hr

section Compound

variable {expression : List Expectation → Reader Expr} {start n : Nat}
  {others : List Expectation}

theorem head_token {us : List Lexeme} {token : Token}
    (h : us.head?.map Lexeme.token = some token) :
    ∃ k us', us = k :: us' ∧ k.token = token := by
  cases us with
  | nil => cases h
  | cons k us' => exact ⟨k, us', rfl, Option.some.inj h⟩

/-- The lexemes start with a keyword of an expression in brackets, or with another one. -/
theorem keyword_or_not (us : List Lexeme) :
    (∃ l us' k, us = l :: us' ∧ l.token = .keyword k ∧ k ∈ Keyword.compounds) ∨
      ∀ l ∈ us.head?, ∀ k ∈ Keyword.compounds, l.token ≠ .keyword k := by
  by_cases h : ∃ l ∈ us.head?, ∃ k ∈ Keyword.compounds, l.token = .keyword k
  · obtain ⟨l, hl, k, hk, hlk⟩ := h
    obtain ⟨us', rfl⟩ := List.head?_eq_some_iff.1 hl
    exact .inl ⟨l, us', k, rfl, hlk, hk⟩
  · exact .inr fun l hl k hk hlk => h ⟨l, hl, k, hk, hlk⟩

theorem compound_skip (ts : List Lexeme) :
    compound expression start others ts = compound expression start others (skip ts) := by
  unfold compound
  dsimp only
  rw [skipBlanks_peek, skipBlanks_peek, skip_skip]

/-- After a keyword, its content is read and then the closing bracket. -/
theorem compound_keyword {l : Lexeme} {k : Keyword} (hl : l.token = .keyword k)
    (hk : k ∈ Keyword.compounds) (us : List Lexeme) :
    compound expression start others (l :: us) = (do
      let make ← content (do skipBlanks; expression [.blank]) k
      let stop ← close (furtherOperands k)
      return make ⟨start, stop⟩ : Reader Expr) us := by
  unfold compound
  dsimp only
  rw [skipBlanks_peek, skip_cons (hl ▸ nofun), List.head?_cons, Option.map_some, hl]
  cases k with
  | opener o => exact (((mem_compounds_iff _).1 hk).1 (by cases o <;> decide)).elim
  | const c => exact (((mem_compounds_iff _).1 hk).2 (by cases c <;> decide)).elim
  | todo => exact (((mem_compounds_iff _).1 hk).2 (by decide)).elim
  | _ =>
    simp only [content, furtherOperands, operands, bind_assoc, pure_bind]
    rfl

/-- Where there is no keyword, an application is read. -/
theorem compound_application {us : List Lexeme} (hus : skip us = us)
    (h : ∀ l ∈ us.head?, ∀ k ∈ Keyword.compounds, l.token ≠ .keyword k) :
    compound expression start others us = (do
      let make ← application expression others
      let stop ← close firsts
      return make ⟨start, stop⟩ : Reader Expr) us := by
  unfold compound
  dsimp only
  rw [skipBlanks_peek, hus]
  generalize hpeek : us.head?.map Lexeme.token = peeked
  split
  case h_10 =>
    simp only [application, operands, bind_assoc, pure_bind]
  all_goals
    obtain ⟨l, us, rfl, hl⟩ := head_token hpeek
    refine (h l rfl _ ?_ hl).elim
    rw [mem_compounds_iff]
    simp [Keyword.openers, Keyword.atoms]

theorem application_sound (hs : ∀ others, Sound (expression others) Expression)
    (others : List Expectation) :
    Sound (application expression others)
      (Trailed fun used make => ∀ s, Compound s used (make s)) := by
  intro ts make rest h
  have hop := spaced_sound (hs [.blank])
  unfold application at h
  generalize (do skipBlanks; expression [.blank] : Reader Expr) = operand at h hop
  simp only [bind_eq_ok_iff, pure_eq_ok_iff] at h
  obtain ⟨function, m, hfunction, head, m', hhead, tail, _, htail, rfl, rfl⟩ := h
  obtain ⟨_, rfl, ⟨hb, ⟨harguments, hb'⟩⟩⟩ := items_sound hop hhead htail
  obtain ⟨_, rfl, hfunction'⟩ := hs _ hfunction
  refine ⟨_, ?_, .mk (fun s => .apply hfunction' hb harguments) hb'⟩
  simp only [List.append_assoc]

theorem application_complete (others : List Expectation)
    (hc : ∀ others, Complete (expression others) Expression n) {us b vs : List Lexeme}
    {function : Expr} {arguments : List Expr} (hfunction : Expression us function)
    (hb : Blanks b) (harguments : Separated Expression vs arguments)
    (hn : (us ++ b ++ vs).length ≤ n) (s : Span) :
    ReadsUpToClosing (application expression others) firsts (us ++ b ++ vs) s
      (.apply s function arguments) := by
  have hop := spaced_complete (hc [.blank]) expression_begins rfl
  simp only [List.length_append] at hn
  obtain ⟨head, tail, rfl⟩ := List.exists_cons_of_ne_nil harguments.ne_nil
  refine ⟨(.apply · function (head :: tail)), rfl, fun b' r rest hb' hr => ?_⟩
  obtain ⟨_, _, m, heq, hhead, htail⟩ := items_complete hop expression_begins rfl rfl
    (.mk hb harguments) (by rw [List.length_append]; omega) hb' hr rest
  cases heq
  have hread := hc (.blank :: Keyword.compounds.map .keyword ++ others) hfunction (by omega)
  refine ⟨_, ?_, close_eq_ok_iff.2 ⟨[], r, .nil, hr, rfl, rfl⟩⟩
  unfold application
  generalize (do skipBlanks; expression [.blank] : Reader Expr) = operand at hhead htail ⊢
  simp only [bind_eq_ok_iff, pure_eq_ok_iff]
  refine ⟨function, _, ?_, head, m, hhead, tail, _, htail, rfl, rfl⟩
  rw [← hread]
  simp only [List.append_assoc]

theorem compound_sound (hs : ∀ others, Sound (expression others) Expression) :
    Sound (compound expression start others) (Inside start) := by
  intro ts e rest h
  obtain ⟨b, hb, hts⟩ := exists_blanks_append_skip ts
  rw [compound_skip] at h
  rcases keyword_or_not (skip ts) with ⟨l, us, k, hskip, hl, hk⟩ | hnot
  · rw [hskip, compound_keyword hl hk] at h
    simp only [bind_eq_ok_iff, pure_eq_ok_iff, close_eq_ok_iff] at h
    obtain ⟨make, m, hmake, stop, _, ⟨b', r, hb', hr, rfl, rfl⟩, rfl, rfl⟩ := h
    obtain ⟨_, rfl, ⟨hfilling, hb''⟩⟩ := content_sound (spaced_sound (hs [.blank])) k hmake
    refine ⟨_, ?_, .mk hb (hfilling hl) (hb''.append hb') hr⟩
    rw [hts, hskip]
    simp only [List.append_assoc, List.cons_append, List.nil_append]
  · rw [compound_application (skip_skip ts) hnot] at h
    simp only [bind_eq_ok_iff, pure_eq_ok_iff, close_eq_ok_iff] at h
    obtain ⟨make, m, hmake, stop, _, ⟨b', r, hb', hr, rfl, rfl⟩, rfl, rfl⟩ := h
    obtain ⟨_, hskip, ⟨happlies, hb''⟩⟩ := application_sound hs others hmake
    refine ⟨_, ?_, .mk hb (happlies _) (hb''.append hb') hr⟩
    rw [hts, hskip]
    simp only [List.append_assoc, List.cons_append, List.nil_append]

theorem compound_complete (others : List Expectation)
    (hc : ∀ others, Complete (expression others) Expression n) :
    Complete (compound expression start others) (Inside start) n := by
  rintro _ e ⟨hb, h, hb', hr⟩ hn rest
  simp only [List.length_append, List.length_cons, List.length_nil] at hn
  simp only [List.append_assoc, List.cons_append, List.nil_append]
  rw [compound_skip]
  rcases keyword_or_apply h with ⟨l, used, k, rfl, hl, hk⟩ | hnot
  · rw [List.length_cons] at hn
    obtain ⟨make, rfl, hread⟩ :=
      content_complete (spaced_complete (hc [.blank]) expression_begins rfl) h hl hk (by omega)
    obtain ⟨m, hmake, hclose⟩ := hread rest hb' hr
    rw [List.cons_append, skip_append_cons hb (hl ▸ nofun), compound_keyword hl hk]
    simp only [bind_eq_ok_iff]
    exact ⟨make, m, hmake, _, rest, hclose, rfl⟩
  · obtain ⟨us, _, _, function, arguments, rfl, rfl, hfunction, hb₁, harguments⟩ := hnot
    obtain ⟨make, hmake, hread⟩ :=
      application_complete others hc hfunction hb₁ harguments (by omega) _
    obtain ⟨m, happlication, hclose⟩ := hread rest hb' hr
    obtain ⟨l, us, rfl, hl⟩ := expression_begins hfunction
    have hne := ne_blank_of_startsExpression hl
    simp only [List.append_assoc, List.cons_append] at happlication ⊢
    rw [skip_append_cons hb hne, compound_application (skip_cons hne _), ← hmake]
    · simp only [bind_eq_ok_iff]
      exact ⟨make, m, happlication, _, rest, hclose, rfl⟩
    · -- an expression does not start with the keyword of an operator
      intro l' hl' k hk htoken
      cases hl'
      rw [htoken, startsExpression_of_not_mem_atoms ((mem_compounds_iff k).1 hk).2] at hl
      cases hl

end Compound

/-! ## Expressions -/

theorem expression_sound (depth : Nat) (others : List Expectation) :
    Sound (expression depth others) Expression := by
  induction depth generalizing others with
  | zero => exact fun _ _ _ h => (refuse_ne_ok h).elim
  | succ depth ih =>
    intro ts e rest hread
    obtain ⟨l, us, hl, h⟩ := bind_eq_ok_iff.1 hread
    obtain ⟨rfl, -⟩ := take_eq_ok_iff.1 hl
    generalize htoken : l.token = token at h
    split at h
    case h_1 =>
      obtain ⟨_, rfl, hinside⟩ := compound_sound ih h
      exact ⟨_, rfl, hinside.expression htoken⟩
    case h_2 c =>
      obtain ⟨rfl, rfl⟩ := pure_eq_ok_iff.1 h
      exact ⟨[l], rfl, .const htoken⟩
    case h_3 =>
      obtain ⟨rfl, rfl⟩ := pure_eq_ok_iff.1 h
      exact ⟨[l], rfl, .todo htoken⟩
    case h_4 =>
      simp only [bind_eq_ok_iff, quoted_eq_ok_iff, pure_eq_ok_iff] at h
      obtain ⟨a, _, ⟨rfl, ha⟩, rfl, rfl⟩ := h
      exact ⟨[l, a], rfl, .tick htoken ha⟩
    case h_5 =>
      simp only [bind_eq_ok_iff, number_eq_ok_iff, pure_eq_ok_iff] at h
      obtain ⟨_, _, ⟨⟨rfl, hsmall⟩, rfl⟩, rfl, rfl⟩ := h
      exact ⟨[l], rfl, .number htoken hsmall⟩
    case h_6 =>
      obtain ⟨rfl, rfl⟩ := pure_eq_ok_iff.1 h
      exact ⟨[l], rfl, .var htoken⟩
    case h_7 => exact (refuse_ne_ok h).elim

theorem expression_complete (depth : Nat) (others : List Expectation) :
    Complete (expression depth others) Expression depth := by
  induction depth generalizing others with
  | zero =>
    intro used e h hn
    obtain ⟨l, ts, rfl, -⟩ := expression_begins h
    cases hn
  | succ depth ih =>
    intro used e h hn rest
    obtain ⟨l, ts, rfl, hl⟩ := expression_begins h
    refine bind_eq_ok_iff.2 ⟨l, ts ++ rest, take_eq_ok_iff.2 ⟨rfl, hl⟩, ?_⟩
    cases h with
    | compound hopening hb h hb' hr =>
      rw [hopening]
      exact compound_complete [] ih (.mk hb h hb' hr) (Nat.le_of_succ_le_succ hn) rest
    | const hconst => rw [hconst]; rfl
    | todo htodo => rw [htodo]; rfl
    | tick htick ha =>
      rw [htick]
      exact bind_eq_ok_iff.2 ⟨_, rest, quoted_eq_ok_iff.2 ⟨rfl, ha⟩, rfl⟩
    | number hnumber hsmall =>
      rw [hnumber]
      exact bind_eq_ok_iff.2 ⟨_, rest, number_eq_ok_iff.2 ⟨⟨rfl, hsmall⟩, rfl⟩, rfl⟩
    | var hname => rw [hname]; rfl

end PieChecker.Surface.Reader
