import PieChecker.Proofs.Parsing.Expressions

set_option autoImplicit false

/-!
# Reading programs

The reader accepts exactly what the grammar derives, and returns the one tree that is derived.
-/

namespace PieChecker.Surface

open Grammar

namespace Reader

/-- An opener is no operator, and no expression starts with it. -/
theorem compound_ne_opener {s : Span} {ts : List Lexeme} {e : Expr} (h : Compound s ts e) :
    ∃ k ts', ts = k :: ts' ∧ k.token ≠ .blank ∧ ∀ o, k.token ≠ .keyword (.opener o) := by
  cases h with
  | unary hk | binary hk | ternary hk | quaternary hk | indVec hk | arrow hk | quant hk
  | lambda hk | quote hk =>
    exact ⟨_, _, rfl, hk ▸ nofun, hk ▸ nofun⟩
  | apply hf =>
    obtain ⟨l, ts, rfl, hl⟩ := expression_begins hf
    refine ⟨l, _, rfl, ne_blank_of_startsExpression hl, fun o ho => ?_⟩
    rw [ho, startsExpression_keyword] at hl
    simp at hl

theorem topLevel_begins : Begins startsExpression TopLevel := by
  intro ts form h
  cases h with
  | claim hl | define hl | checkSame hl => exact ⟨_, _, rfl, by rw [hl]; rfl⟩
  | expression h => exact expression_begins h

/-- What may follow the opening bracket of a top-level form that starts at the given position,
with the closing bracket. -/
def FormInside (start : Nat) (used : List Lexeme) (f : Form) : Prop :=
  ∀ l : Lexeme, l.token = .opening → l.start = start → TopLevel (l :: used) f

theorem bracketedForm_sound (depth start : Nat) :
    Sound (bracketedForm depth start) (FormInside start) := by
  intro ts f rest h
  have hop := spaced_sound (expression_sound depth [.blank])
  obtain ⟨b, hb, hts⟩ := exists_blanks_append_skip ts
  unfold bracketedForm at h
  rw [skipBlanks_peek_eq_ok_iff] at h
  generalize (do skipBlanks; expression depth [.blank] : Reader Expr) = operand at h hop
  generalize hpeek : (skip ts).head?.map Lexeme.token = peeked at h
  generalize skip ts = us at h hts hpeek
  split at h
  case h_1 =>
    obtain ⟨k, us, rfl, hk⟩ := head_token hpeek
    simp only [bind_eq_ok_iff, modify_eq_ok_iff, pure_eq_ok_iff, close_eq_ok_iff,
      site_eq_ok_iff] at h
    obtain ⟨_, _, hus, x, m, ⟨b₁, used, hb₁, hx, rfl⟩, ty, m', hty, _, _,
        ⟨b₃, r, hb₃, hr, -, rfl⟩, rfl, rfl⟩ := h
    obtain ⟨_, rfl, ⟨hb₂, hty⟩⟩ := hop hty
    refine ⟨_, ?_, fun l hl _ => .claim hl hb hk hb₁ hx hb₂ hty hb₃ hr⟩
    rw [List.tail_cons] at hus
    rw [hts, hus]
    simp only [List.append_assoc, List.cons_append, List.nil_append]
  case h_2 =>
    obtain ⟨k, us, rfl, hk⟩ := head_token hpeek
    simp only [bind_eq_ok_iff, modify_eq_ok_iff, pure_eq_ok_iff, close_eq_ok_iff,
      site_eq_ok_iff] at h
    obtain ⟨_, _, hus, x, m, ⟨b₁, used, hb₁, hx, rfl⟩, term, m', hterm, _, _,
        ⟨b₃, r, hb₃, hr, -, rfl⟩, rfl, rfl⟩ := h
    obtain ⟨_, rfl, ⟨hb₂, hterm⟩⟩ := hop hterm
    refine ⟨_, ?_, fun l hl _ => .define hl hb hk hb₁ hx hb₂ hterm hb₃ hr⟩
    rw [List.tail_cons] at hus
    rw [hts, hus]
    simp only [List.append_assoc, List.cons_append, List.nil_append]
  case h_3 =>
    obtain ⟨k, us, rfl, hk⟩ := head_token hpeek
    simp only [bind_eq_ok_iff, modify_eq_ok_iff, pure_eq_ok_iff, close_eq_ok_iff] at h
    obtain ⟨_, _, hus, ty, m₁, hty, left, m₂, hleft, right, m₃, hright, _, _,
        ⟨b₁, r, hb₁, hr, -, rfl⟩, rfl, rfl⟩ := h
    obtain ⟨used, hused, hseries⟩ :=
      hop.series_cons hty (hop.series_cons hleft (hop.series_cons hright (Series.exists_nil _)))
    refine ⟨_, ?_, fun l hl _ => .checkSame hl hb hk hseries hb₁ hr⟩
    rw [List.tail_cons] at hus
    rw [hts, hus, hused]
    simp only [List.append_assoc, List.cons_append, List.nil_append]
  case h_4 =>
    simp only [bind_eq_ok_iff, pure_eq_ok_iff] at h
    obtain ⟨e, _, hcompound, rfl, rfl⟩ := h
    obtain ⟨used, hus, hinside⟩ := compound_sound (expression_sound depth) hcompound
    refine ⟨b ++ used, by rw [hts, hus, List.append_assoc], ?_⟩
    rintro l hl rfl
    exact .expression ((hinside.spaced hb).expression hl)

theorem form_sound (depth : Nat) : Sound (form depth) TopLevel := by
  intro ts f rest h
  unfold form at h
  obtain ⟨_, _, hget, hform⟩ := bind_eq_ok_iff.1 h
  obtain ⟨rfl, rfl⟩ := get_eq_ok_iff.1 hget
  clear h hget
  split at hform
  · obtain ⟨_, _, hset, hform⟩ := bind_eq_ok_iff.1 hform
    obtain rfl := set_eq_ok_iff.1 hset
    obtain ⟨used, rfl, hused⟩ := bracketedForm_sound _ _ hform
    exact ⟨_ :: used, rfl, hused _ rfl rfl⟩
  · simp only [bind_eq_ok_iff, pure_eq_ok_iff] at hform
    obtain ⟨e, _, he, rfl, rfl⟩ := hform
    obtain ⟨used, hused, he⟩ := expression_sound depth _ he
    exact ⟨used, hused, .expression he⟩

theorem form_eq_bracketedForm {l : Lexeme} (hl : l.token = .opening) (depth : Nat)
    (us : List Lexeme) :
    form depth (l :: us) = bracketedForm depth l.start us := by
  obtain ⟨token, start, text⟩ := l
  obtain rfl : token = .opening := hl
  rfl

theorem form_eq_expression {l : Lexeme} (hl : l.token ≠ .opening) (depth : Nat)
    (us : List Lexeme) :
    form depth (l :: us) = (do return .expression (← expression depth [.blank, .endOfText]) :
      Reader Form) (l :: us) := by
  obtain ⟨token, start, text⟩ := l
  cases token with
  | opening => exact (hl rfl).elim
  | _ => rfl

theorem form_complete (depth : Nat) : Complete (form depth) TopLevel depth := by
  intro used f h hn rest
  have hop := spaced_complete (expression_complete depth [.blank]) expression_begins rfl
  cases h with
  | claim hl hb hk hb₁ hx hb₂ hty hb₃ hr =>
    simp only [List.length_append, List.length_cons, List.length_nil] at hn
    have hread := hop (.mk hb₂ hty) (by rw [List.length_append]; omega)
    simp only [List.append_assoc, List.cons_append, List.nil_append]
    rw [form_eq_bracketedForm hl, bracketedForm, skipBlanks_peek_eq_ok_iff,
      skip_append_cons hb (hk ▸ nofun), List.head?_cons, Option.map_some, hk]
    generalize (do skipBlanks; expression depth [.blank] : Reader Expr) = operand at hread ⊢
    simp only [bind_eq_ok_iff, modify_eq_ok_iff, pure_eq_ok_iff, close_eq_ok_iff,
      site_eq_ok_iff, List.tail_cons]
    refine ⟨(), _, rfl, _, _, ⟨_, _, hb₁, hx, rfl⟩, _, _, ?_, _, rest,
      ⟨_, _, hb₃, hr, rfl, rfl⟩, rfl, rfl⟩
    rw [← hread, List.append_assoc]
  | define hl hb hk hb₁ hx hb₂ hterm hb₃ hr =>
    simp only [List.length_append, List.length_cons, List.length_nil] at hn
    have hread := hop (.mk hb₂ hterm) (by rw [List.length_append]; omega)
    simp only [List.append_assoc, List.cons_append, List.nil_append]
    rw [form_eq_bracketedForm hl, bracketedForm, skipBlanks_peek_eq_ok_iff,
      skip_append_cons hb (hk ▸ nofun), List.head?_cons, Option.map_some, hk]
    generalize (do skipBlanks; expression depth [.blank] : Reader Expr) = operand at hread ⊢
    simp only [bind_eq_ok_iff, modify_eq_ok_iff, pure_eq_ok_iff, close_eq_ok_iff,
      site_eq_ok_iff, List.tail_cons]
    refine ⟨(), _, rfl, _, _, ⟨_, _, hb₁, hx, rfl⟩, _, _, ?_, _, rest,
      ⟨_, _, hb₃, hr, rfl, rfl⟩, rfl, rfl⟩
    rw [← hread, List.append_assoc]
  | checkSame hl hb hk h hb₁ hr =>
    simp only [List.length_append, List.length_cons, List.length_nil] at hn
    obtain ⟨m₁, h, hm₁, hty⟩ := hop.series_cons h (by omega)
    obtain ⟨m₂, h, hm₂, hleft⟩ := hop.series_cons h hm₁
    obtain ⟨m₃, h, hm₃, hright⟩ := hop.series_cons h hm₂
    cases h
    simp only [List.append_assoc, List.cons_append, List.nil_append]
    rw [form_eq_bracketedForm hl, bracketedForm, skipBlanks_peek_eq_ok_iff,
      skip_append_cons hb (hk ▸ nofun), List.head?_cons, Option.map_some, hk]
    generalize (do skipBlanks; expression depth [.blank] : Reader Expr) =
      operand at hty hleft hright ⊢
    simp only [bind_eq_ok_iff, modify_eq_ok_iff, pure_eq_ok_iff, close_eq_ok_iff,
      List.tail_cons]
    exact ⟨(), _, rfl, _, _, hty _, _, _, hleft _, _, _, hright _, _, rest,
      ⟨_, _, hb₁, hr, rfl, rfl⟩, rfl, rfl⟩
  | expression h =>
    obtain ⟨l, ts, rfl, -⟩ := expression_begins h
    by_cases hl : l.token = .opening
    · rw [List.cons_append, form_eq_bracketedForm hl, bracketedForm, skipBlanks_peek_eq_ok_iff]
      cases h with
      | const h | todo h | tick h | number h | var h =>
        rw [h] at hl
        cases hl
      | compound _ hb h hb' hr =>
        simp only [List.length_append, List.length_cons, List.length_nil] at hn
        have hread := compound_complete (Keyword.openers.map .keyword)
          (expression_complete depth) (.mk .nil h hb' hr)
          (by simp only [List.length_append, List.length_cons, List.length_nil]; omega) rest
        obtain ⟨k, us, rfl, hne, hopener⟩ := compound_ne_opener h
        simp only [List.append_assoc, List.cons_append, List.nil_append] at hread ⊢
        rw [skip_append_cons hb hne, List.head?_cons, Option.map_some]
        generalize hpeek : some k.token = peeked
        split
        case h_4 => exact bind_eq_ok_iff.2 ⟨_, rest, hread, rfl⟩
        all_goals exact (hopener _ (Option.some.inj hpeek)).elim
    · have hread := expression_complete depth [.blank, .endOfText] h hn rest
      rw [List.cons_append] at hread ⊢
      rw [form_eq_expression hl]
      exact bind_eq_ok_iff.2 ⟨_, _, hread, rfl⟩

theorem program_sound (depth : Nat) {bound : Nat} {ts rest : List Lexeme} {forms : List Form}
    (hbound : ts.length < bound) (h : program depth bound ts = .ok (forms, rest)) :
    ∃ used b, ts = used ++ b ∧ Series TopLevel used forms ∧ Blanks b := by
  induction bound generalizing ts forms with
  | zero => omega
  | succ bound ih =>
    obtain ⟨b, hb, hts⟩ := exists_blanks_append_skip ts
    rw [program, skipBlanks_peek_eq_ok_iff] at h
    generalize skip ts = us at h hts
    cases us with
    | nil =>
      obtain ⟨rfl, rfl⟩ := pure_eq_ok_iff.1 h
      exact ⟨[], b, by rw [hts, List.append_nil, List.nil_append], .nil, hb⟩
    | cons l us =>
      simp only [List.head?_cons, Option.map_some, bind_eq_ok_iff, pure_eq_ok_iff] at h
      obtain ⟨f, mid, hread, fs, _, hfs, rfl, rfl⟩ := h
      obtain ⟨used, hused, hf⟩ := form_sound depth hread
      obtain ⟨k, used, rfl, -⟩ := topLevel_begins hf
      rw [hused] at hts
      have hlen : mid.length < bound := by
        simp only [hts, List.length_append, List.length_cons] at hbound
        omega
      obtain ⟨used', b', rfl, hfs, hb'⟩ := ih hlen hfs
      exact ⟨_, b', by rw [hts, List.append_assoc, List.append_assoc], .cons hb hf hfs, hb'⟩

theorem program_complete (depth : Nat) {bound : Nat} {used b : List Lexeme} {forms : List Form}
    (h : Series TopLevel used forms) (hb : Blanks b) (hn : used.length ≤ depth)
    (hbound : forms.length < bound) :
    program depth bound (used ++ b) = .ok (forms, []) := by
  induction bound generalizing used forms with
  | zero => omega
  | succ bound ih =>
    rw [program, skipBlanks_peek_eq_ok_iff]
    cases h with
    | nil =>
      rw [List.nil_append, skip_blanks hb]
      rfl
    | @cons b' ts left f fs hb' hf hfs =>
      simp only [List.length_append, List.length_cons] at hn hbound
      have hread := form_complete depth hf (by omega) (left ++ b)
      obtain ⟨l, ts, rfl, hl⟩ := topLevel_begins hf
      simp only [List.append_assoc, List.cons_append] at hread ⊢
      rw [skip_append_cons hb' (ne_blank_of_startsExpression hl), List.head?_cons,
        Option.map_some]
      simp only [bind_eq_ok_iff, pure_eq_ok_iff]
      exact ⟨f, _, hread, fs, [], ih hfs (by omega) (by omega), rfl, rfl⟩

theorem loneExpression_sound (depth : Nat) {ts rest : List Lexeme} {e : Expr}
    (h : loneExpression depth ts = .ok (e, rest)) : LoneExpression ts e := by
  obtain ⟨_, us, hus, h⟩ := bind_eq_ok_iff.1 h
  obtain rfl := skipBlanks_eq_ok_iff.1 hus
  obtain ⟨e', mid, he, h⟩ := bind_eq_ok_iff.1 h
  rw [skipBlanks_peek_eq_ok_iff] at h
  obtain ⟨b, hb, hts⟩ := exists_blanks_append_skip ts
  obtain ⟨b', hb', hmid⟩ := exists_blanks_append_skip mid
  obtain ⟨used, hused, he⟩ := expression_sound depth [.blank] he
  generalize skip mid = left at h hmid
  cases left with
  | cons l left => exact (refuse_ne_ok h).elim
  | nil =>
    obtain ⟨rfl, rfl⟩ := pure_eq_ok_iff.1 h
    rw [hts, hused, hmid, List.append_nil, ← List.append_assoc]
    exact .mk hb he hb'

theorem loneExpression_complete {depth : Nat} {ts : List Lexeme} {e : Expr}
    (h : LoneExpression ts e) (hn : ts.length ≤ depth) :
    loneExpression depth ts = .ok (e, []) := by
  obtain ⟨hb, h, hb'⟩ := h
  simp only [List.length_append] at hn
  have hread := expression_complete depth [.blank] h (by omega)
  obtain ⟨l, ts, rfl, hl⟩ := expression_begins h
  refine bind_eq_ok_iff.2 ⟨(), _, skipBlanks_eq_ok_iff.2 rfl, ?_⟩
  rw [List.append_assoc, List.cons_append,
    skip_append_cons hb (ne_blank_of_startsExpression hl), ← List.cons_append]
  refine bind_eq_ok_iff.2 ⟨e, _, hread _, ?_⟩
  rw [skipBlanks_peek_eq_ok_iff, skip_blanks hb']
  rfl

end Reader

open Reader

theorem readAll_eq_ok_iff {α : Type} {reader : Reader α} {size : Nat}
    {ts : List Lexeme} {a : α} :
    readAll reader size ts = .ok a ↔ ∃ rest, reader ts = .ok (a, rest) := by
  unfold readAll
  cases reader ts with
  | error refusal => exact ⟨nofun, fun ⟨_, h⟩ => nomatch h⟩
  | ok p =>
    constructor
    · rintro ⟨⟩
      exact ⟨p.2, rfl⟩
    · rintro ⟨rest, ⟨⟩⟩
      rfl

/-- A program is a series of forms and then blanks. -/
theorem program_iff_series {ts : List Lexeme} {forms : List Form} :
    Program ts forms ↔ ∃ used b, ts = used ++ b ∧ Series TopLevel used forms ∧ Blanks b := by
  constructor
  · rintro (⟨hb, hb'⟩ | ⟨hb, hs, hb'⟩)
    · exact ⟨[], _, rfl, .nil, hb.append hb'⟩
    · exact ⟨_, _, rfl, hs.series hb, hb'⟩
  · rintro ⟨used, b, rfl, hs, hb⟩
    cases forms with
    | nil =>
      cases hs
      exact .empty .nil hb
    | cons f fs =>
      obtain ⟨b', ts, rfl, hb', hs⟩ := hs.separated (List.cons_ne_nil _ _)
      exact .forms hb' hs hb

theorem parseLexemes_eq_ok_iff (size : Nat) (ts : List Lexeme) (forms : List Form) :
    parseLexemes size ts = .ok forms ↔ Program ts forms := by
  rw [parseLexemes, readAll_eq_ok_iff, program_iff_series]
  constructor
  · rintro ⟨rest, h⟩
    exact program_sound _ (Nat.lt_succ_self _) h
  · rintro ⟨used, b, rfl, hs, hb⟩
    have hlen := topLevel_begins.length_le hs
    rw [List.length_append]
    exact ⟨[], program_complete _ hs hb (by omega) (by omega)⟩

theorem parseLexemesAsExpression_eq_ok_iff (size : Nat) (ts : List Lexeme) (e : Expr) :
    parseLexemesAsExpression size ts = .ok e ↔ LoneExpression ts e := by
  rw [parseLexemesAsExpression, readAll_eq_ok_iff]
  constructor
  · rintro ⟨rest, h⟩
    exact loneExpression_sound _ h
  · intro h
    exact ⟨[], loneExpression_complete h (Nat.le_succ _)⟩

end PieChecker.Surface
