import PieChecker.Proofs.Lexing.Seam
import PieChecker.Proofs.Parsing.Programs
import PieChecker.Proofs.Places
import PieChecker.Proofs.Simulation.Outcome

set_option autoImplicit false

/-!
# Where the parts of a program stand

What the places of a derived tree have to do with the lexemes that it is derived from. Lexemes
that are shifted derive the tree with its places shifted. Every place begins where a lexeme
begins and ends where that lexeme or a later one ends, and the place of an unfinished part is
that of a lexeme.

Two programs, one after the other, are a program, whatever blanks there are between them.
-/

namespace PieChecker.Surface

namespace Grammar

/-! ## Items one by one -/

section Items

variable {α β : Type} {Item : List Lexeme → α → Prop} {Item' : List Lexeme → β → Prop}
  {ts : List Lexeme} {as : List α}

theorem Blanks.shift (n : Nat) {b : List Lexeme} (h : Blanks b) :
    Blanks (b.map (Lexeme.shift n)) := by
  intro l hl
  obtain ⟨l', hl', rfl⟩ := List.mem_map.1 hl
  exact h l' hl'

theorem Series.shift (n : Nat) {g : α → β} (h : Series Item ts as)
    (hitem : ∀ a ∈ as, ∀ ts, Item ts a → Item' (ts.map (Lexeme.shift n)) (g a)) :
    Series Item' (ts.map (Lexeme.shift n)) (as.map g) := by
  induction h with
  | nil => exact .nil
  | cons hb h _ ih =>
    obtain ⟨ha, has⟩ := List.forall_mem_cons.1 hitem
    rw [List.map_append, List.map_append]
    exact .cons (hb.shift n) (ha _ h) (ih has)

theorem Separated.shift (n : Nat) {g : α → β} (h : Separated Item ts as)
    (hitem : ∀ a ∈ as, ∀ ts, Item ts a → Item' (ts.map (Lexeme.shift n)) (g a)) :
    Separated Item' (ts.map (Lexeme.shift n)) (as.map g) := by
  induction h with
  | one h => exact .one (hitem _ List.mem_cons_self _ h)
  | more h hb _ ih =>
    obtain ⟨ha, has⟩ := List.forall_mem_cons.1 hitem
    rw [List.map_append, List.map_append]
    exact .more (ha _ h) (hb.shift n) (ih has)

end Items

/-! ## Shifted lexemes -/

variable {ts : List Lexeme}

theorem BindingSite.shift (n : Nat) {site : Site} (h : BindingSite ts site) :
    BindingSite (ts.map (Lexeme.shift n)) (site.relocate (Span.shift n)) := by
  obtain ⟨h⟩ := h
  rw [Site.relocate, ← Lexeme.span_shift]
  exact .name h

theorem Quotable.shift (n : Nat) {l : Lexeme} (h : Quotable l) : Quotable (l.shift n) := by
  rcases h with h | ⟨k, h⟩
  · exact .name h
  · exact .keyword k h

theorem span_shift_shift (n : Nat) (l r : Lexeme) :
    (⟨l.start, r.stop⟩ : Span).shift n = ⟨(l.shift n).start, (r.shift n).stop⟩ := by
  rw [r.stop_shift]
  rfl

/-- Brackets around shifted lexemes. -/
theorem Compound.expression_shift (n : Nat) {l r : Lexeme} {b b₁ : List Lexeme} {e : Expr}
    (hl : l.token = .opening) (hb : Blanks b)
    (h : Compound ((⟨l.start, r.stop⟩ : Span).shift n) (ts.map (Lexeme.shift n)) e)
    (hb₁ : Blanks b₁) (hr : r.token = .closing) :
    Expression ((l :: (b ++ ts ++ b₁ ++ [r])).map (Lexeme.shift n)) e := by
  rw [span_shift_shift] at h
  simp only [List.map_cons, List.map_append, List.map_nil]
  exact .compound hl (hb.shift n) h (hb₁.shift n) hr

theorem Expression.shift (n : Nat) {e : Expr} (h : Expression ts e) :
    Expression (ts.map (Lexeme.shift n)) (e.relocate (Span.shift n)) := by
  induction e using Expr.induction generalizing ts with
  | const s c =>
    cases h with
    | const h =>
      rw [Expr.relocate, ← Lexeme.span_shift]
      exact .const h
    | compound _ _ h => cases h
  | todo s =>
    cases h with
    | todo h =>
      rw [Expr.relocate, ← Lexeme.span_shift]
      exact .todo h
    | compound _ _ h => cases h
  | var s x =>
    cases h with
    | var h =>
      rw [Expr.relocate, ← Lexeme.span_shift]
      exact .var h
    | compound _ _ h => cases h
  | number s k =>
    cases h with
    | number hl h =>
      rw [Expr.relocate, ← Lexeme.span_shift]
      exact .number hl h
    | compound _ _ h => cases h
  | quote s a =>
    cases h with
    | tick hl ha =>
      rw [Expr.relocate, span_shift_shift]
      exact .tick hl (ha.shift n)
    | compound hl hb h hb₁ hr =>
      cases h with
      | quote hk hb' ha =>
        refine Compound.expression_shift n hl hb ?_ hb₁ hr
        rw [List.map_cons, List.map_append]
        exact .quote hk (hb'.shift n) (ha.shift n)
  | unary s o a iha =>
    cases h with
    | compound hl hb h hb₁ hr =>
      cases h with
      | unary hk h =>
        refine Compound.expression_shift n hl hb ?_ hb₁ hr
        exact .unary hk (h.shift n (List.forall_mem_singleton.2 fun _ => iha))
  | binary s o a b iha ihb =>
    cases h with
    | compound hl hb h hb₁ hr =>
      cases h with
      | binary hk h =>
        refine Compound.expression_shift n hl hb ?_ hb₁ hr
        refine .binary hk (h.shift n ?_)
        simp only [List.mem_cons, List.not_mem_nil, or_false, forall_eq_or_imp, forall_eq]
        exact ⟨fun _ => iha, fun _ => ihb⟩
  | ternary s o a b c iha ihb ihc =>
    cases h with
    | compound hl hb h hb₁ hr =>
      cases h with
      | ternary hk h =>
        refine Compound.expression_shift n hl hb ?_ hb₁ hr
        refine .ternary hk (h.shift n ?_)
        simp only [List.mem_cons, List.not_mem_nil, or_false, forall_eq_or_imp, forall_eq]
        exact ⟨fun _ => iha, fun _ => ihb, fun _ => ihc⟩
  | quaternary s o a b c d iha ihb ihc ihd =>
    cases h with
    | compound hl hb h hb₁ hr =>
      cases h with
      | quaternary hk h =>
        refine Compound.expression_shift n hl hb ?_ hb₁ hr
        refine .quaternary hk (h.shift n ?_)
        simp only [List.mem_cons, List.not_mem_nil, or_false, forall_eq_or_imp, forall_eq]
        exact ⟨fun _ => iha, fun _ => ihb, fun _ => ihc, fun _ => ihd⟩
  | indVec s l t m b p ihl iht ihm ihb ihp =>
    cases h with
    | compound hl hb h hb₁ hr =>
      cases h with
      | indVec hk h =>
        refine Compound.expression_shift n hl hb ?_ hb₁ hr
        refine .indVec hk (h.shift n ?_)
        simp only [List.mem_cons, List.not_mem_nil, or_false, forall_eq_or_imp, forall_eq]
        exact ⟨fun _ => ihl, fun _ => iht, fun _ => ihm, fun _ => ihb, fun _ => ihp⟩
  | arrow s domain rest ihd ihr =>
    cases h with
    | compound hl hb h hb₁ hr =>
      cases h with
      | arrow hk hb' hd hb₁' hrest =>
        refine Compound.expression_shift n hl hb ?_ hb₁ hr
        simp only [List.map_cons, List.map_append]
        rw [Expr.relocate, Expr.relocateList_eq]
        exact .arrow hk (hb'.shift n) (ihd hd) (hb₁'.shift n)
          (hrest.shift n fun a ha _ => ihr a ha)
  | quant s q binders body ihb ih =>
    cases h with
    | compound hl hb h hb₁ hr =>
      cases h with
      | quant hk hb' hl' hb₁' hs hb₂ hr' hb₃ h =>
        refine Compound.expression_shift n hl hb ?_ hb₁ hr
        simp only [List.map_cons, List.map_append]
        rw [Expr.relocate, Expr.relocateBinders_eq]
        refine .quant hk (hb'.shift n) hl' (hb₁'.shift n) (hs.shift n ?_) (hb₂.shift n) hr'
          (hb₃.shift n) (ih h)
        intro binder hbinder us hus
        obtain ⟨hl, hb, hs, hb₁, h, hb₂, hr⟩ := hus
        simp only [List.map_cons, List.map_append]
        exact .mk hl (hb.shift n) (hs.shift n) (hb₁.shift n) (ihb _ hbinder h) (hb₂.shift n) hr
  | lambda s parameters body ih =>
    cases h with
    | compound hl hb h hb₁ hr =>
      cases h with
      | lambda hk hb' hl' hb₁' hs hb₂ hr' hb₃ h =>
        refine Compound.expression_shift n hl hb ?_ hb₁ hr
        simp only [List.map_cons, List.map_append]
        exact .lambda hk (hb'.shift n) hl' (hb₁'.shift n) (hs.shift n fun _ _ _ => .shift n)
          (hb₂.shift n) hr' (hb₃.shift n) (ih h)
  | apply s function arguments ihf iha =>
    cases h with
    | compound hl hb h hb₁ hr =>
      cases h with
      | apply hf hb' ha =>
        refine Compound.expression_shift n hl hb ?_ hb₁ hr
        simp only [List.map_append]
        rw [Expr.relocate, Expr.relocateList_eq]
        exact .apply (ihf hf) (hb'.shift n) (ha.shift n fun a ha _ => iha a ha)

theorem TopLevel.shift (n : Nat) {form : Form} (h : TopLevel ts form) :
    TopLevel (ts.map (Lexeme.shift n)) (form.relocate (Span.shift n)) := by
  cases h with
  | claim hl hb hk hb₁ hs hb₂ h hb₃ hr =>
    simp only [List.map_cons, List.map_append, List.map_nil]
    exact .claim hl (hb.shift n) hk (hb₁.shift n) (hs.shift n) (hb₂.shift n) (h.shift n)
      (hb₃.shift n) hr
  | define hl hb hk hb₁ hs hb₂ h hb₃ hr =>
    simp only [List.map_cons, List.map_append, List.map_nil]
    exact .define hl (hb.shift n) hk (hb₁.shift n) (hs.shift n) (hb₂.shift n) (h.shift n)
      (hb₃.shift n) hr
  | checkSame hl hb hk h hb₁ hr =>
    simp only [List.map_cons, List.map_append, List.map_nil]
    exact .checkSame hl (hb.shift n) hk (h.shift n fun _ _ _ => .shift n) (hb₁.shift n) hr
  | expression h => exact .expression (h.shift n)

theorem Program.shift (n : Nat) {forms : List Form} (h : Program ts forms) :
    Program (ts.map (Lexeme.shift n)) (forms.map (Form.relocate (Span.shift n))) := by
  rw [program_iff_series] at h ⊢
  obtain ⟨used, b, rfl, hs, hb⟩ := h
  exact ⟨_, _, List.map_append, hs.shift n fun _ _ _ => .shift n, hb.shift n⟩

/-! ## Places of derived trees -/

/-- The span begins where some lexeme begins, and ends where that one or a later one ends. -/
def Spans (ts : List Lexeme) (s : Span) : Prop :=
  ∃ before used after l r, ts = before ++ used ++ after ∧ used.head? = some l ∧
    used.getLast? = some r ∧
    s = ⟨l.start, r.stop⟩

/-- The places are those of runs of lexemes, and the unfinished ones those of single lexemes. -/
structure Placed (ts : List Lexeme) (places todos : List Span) : Prop where
  spans : ∀ s ∈ places, Spans ts s
  unfinished : ∀ s ∈ todos, ∃ l ∈ ts, l.token = .keyword .todo ∧ l.span = s

namespace Placed

variable {ts' : List Lexeme} {places places' todos todos' : List Span}

theorem nil (ts : List Lexeme) : Placed ts [] [] := ⟨nofun, nofun⟩

theorem append (h : Placed ts places todos) (h' : Placed ts' places' todos') :
    Placed (ts ++ ts') (places ++ places') (todos ++ todos') where
  spans s hs := by
    rcases List.mem_append.1 hs with hs | hs
    · obtain ⟨before, used, after, l, r, rfl, hspan⟩ := h.spans s hs
      exact ⟨before, used, after ++ ts', l, r, by simp only [List.append_assoc], hspan⟩
    · obtain ⟨before, used, after, l, r, rfl, hspan⟩ := h'.spans s hs
      exact ⟨ts ++ before, used, after, l, r, by simp only [List.append_assoc], hspan⟩
  unfinished s hs := by
    rcases List.mem_append.1 hs with hs | hs
    · obtain ⟨l, hl, htodo⟩ := h.unfinished s hs
      exact ⟨l, List.mem_append_left _ hl, htodo⟩
    · obtain ⟨l, hl, htodo⟩ := h'.unfinished s hs
      exact ⟨l, List.mem_append_right _ hl, htodo⟩

theorem after (h : Placed ts places todos) (b : List Lexeme) : Placed (b ++ ts) places todos :=
  (nil b).append h

theorem before (h : Placed ts places todos) (b : List Lexeme) :
    Placed (ts ++ b) places todos := by
  have happend := h.append (nil b)
  rwa [List.append_nil, List.append_nil] at happend

/-- A run of lexemes has a place of its own. -/
theorem cons {l r : Lexeme} (h : Placed ts places todos) (hl : ts.head? = some l)
    (hr : ts.getLast? = some r) :
    Placed ts (⟨l.start, r.stop⟩ :: places) todos where
  spans := List.forall_mem_cons.2
    ⟨⟨[], ts, [], l, r, (List.append_nil ts).symm, hl, hr, rfl⟩, h.spans⟩
  unfinished := h.unfinished

theorem lexeme (l : Lexeme) : Placed [l] [l.span] [] := (nil [l]).cons rfl rfl

theorem bracketed {l r : Lexeme} {b b₁ : List Lexeme} (h : Placed ts places todos) :
    Placed (l :: (b ++ ts ++ b₁ ++ [r])) (⟨l.start, r.stop⟩ :: places) todos :=
  ((((h.after b).before b₁).before [r]).after [l]).cons rfl (by simp [List.getLast?_cons])

section Items

variable {α : Type} {Item : List Lexeme → α → Prop} {as : List α}
  {placesOf todosOf : α → List Span}

theorem series (h : Series Item ts as)
    (hitem : ∀ a ∈ as, ∀ ts, Item ts a → Placed ts (placesOf a) (todosOf a)) :
    Placed ts (as.flatMap placesOf) (as.flatMap todosOf) := by
  induction h with
  | nil => exact nil []
  | cons _ h _ ih =>
    obtain ⟨ha, has⟩ := List.forall_mem_cons.1 hitem
    exact ((ha _ h).after _).append (ih has)

theorem separated (h : Separated Item ts as)
    (hitem : ∀ a ∈ as, ∀ ts, Item ts a → Placed ts (placesOf a) (todosOf a)) :
    Placed ts (as.flatMap placesOf) (as.flatMap todosOf) :=
  series (h.series .nil) hitem

end Items

end Placed

theorem BindingSite.placed {site : Site} (h : BindingSite ts site) :
    Placed ts [site.span] [] := by
  obtain ⟨h⟩ := h
  exact .lexeme _

namespace Placed

/-- Operands have their places if each of them has. -/
theorem operands {es : List Expr} (h : Series Expression ts es)
    (hes : ∀ e ∈ es, ∀ ts, Expression ts e → Placed ts e.places e.todos) :
    Placed ts (es.flatMap Expr.places) (es.flatMap Expr.todos) :=
  series h hes

theorem sites {sites : List Site} (h : Separated BindingSite ts sites) :
    Placed ts (sites.map Site.span) [] := by
  have hplaced : Placed ts (sites.flatMap fun site => [site.span])
      (sites.flatMap fun _ => []) :=
    separated h fun _ _ _ => BindingSite.placed
  rwa [← List.map_eq_flatMap, List.flatMap_eq_nil_iff.2 fun _ _ => rfl] at hplaced

theorem typedBinders {binders : List (Site × Expr)} (h : Separated TypedBinder ts binders)
    (hbinders : ∀ b ∈ binders, ∀ ts, Expression ts b.2 → Placed ts b.2.places b.2.todos) :
    Placed ts (binders.flatMap fun b => b.1.span :: b.2.places)
      (binders.flatMap fun b => b.2.todos) := by
  apply separated h
  intro b hb us hus
  obtain ⟨_, _, hs, _, h, _, _⟩ := hus
  exact (((((hs.placed.after _).before _).append (hbinders _ hb _ h)).before _).before
    [_]).after [_]

end Placed

theorem Expression.placed {e : Expr} (h : Expression ts e) : Placed ts e.places e.todos := by
  induction e using Expr.induction generalizing ts with
  | const s c =>
    cases h with
    | const h => exact .lexeme _
    | compound _ _ h => cases h
  | todo s =>
    cases h with
    | todo h =>
      exact ⟨(Placed.lexeme _).spans,
        List.forall_mem_singleton.2 ⟨_, List.mem_cons_self, h, rfl⟩⟩
    | compound _ _ h => cases h
  | var s x =>
    cases h with
    | var h => exact .lexeme _
    | compound _ _ h => cases h
  | number s k =>
    cases h with
    | number hl h => exact .lexeme _
    | compound _ _ h => cases h
  | quote s a =>
    cases h with
    | tick hl ha => exact (Placed.nil _).cons rfl rfl
    | compound hl hb h hb₁ hr => cases h with | quote => exact (Placed.nil _).bracketed
  | unary s o a iha =>
    cases h with
    | compound hl hb h hb₁ hr =>
      cases h with
      | unary hk h =>
        have hplaced := Placed.operands h (List.forall_mem_singleton.2 fun _ => iha)
        rw [List.flatMap_singleton, List.flatMap_singleton] at hplaced
        exact (hplaced.after [_]).bracketed
  | binary s o a b iha ihb =>
    cases h with
    | compound hl hb h hb₁ hr =>
      cases h with
      | binary hk h =>
        have hplaced := Placed.operands h
        simp only [List.mem_cons, List.not_mem_nil, or_false, forall_eq_or_imp, forall_eq,
          List.flatMap_cons, List.flatMap_nil, List.append_nil] at hplaced
        exact ((hplaced ⟨fun _ => iha, fun _ => ihb⟩).after [_]).bracketed
  | ternary s o a b c iha ihb ihc =>
    cases h with
    | compound hl hb h hb₁ hr =>
      cases h with
      | ternary hk h =>
        have hplaced := Placed.operands h
        simp only [List.mem_cons, List.not_mem_nil, or_false, forall_eq_or_imp, forall_eq,
          List.flatMap_cons, List.flatMap_nil, List.append_nil, ← List.append_assoc] at hplaced
        exact ((hplaced ⟨fun _ => iha, fun _ => ihb, fun _ => ihc⟩).after [_]).bracketed
  | quaternary s o a b c d iha ihb ihc ihd =>
    cases h with
    | compound hl hb h hb₁ hr =>
      cases h with
      | quaternary hk h =>
        have hplaced := Placed.operands h
        simp only [List.mem_cons, List.not_mem_nil, or_false, forall_eq_or_imp, forall_eq,
          List.flatMap_cons, List.flatMap_nil, List.append_nil, ← List.append_assoc] at hplaced
        exact ((hplaced ⟨fun _ => iha, fun _ => ihb, fun _ => ihc, fun _ => ihd⟩).after
          [_]).bracketed
  | indVec s l t m b p ihl iht ihm ihb ihp =>
    cases h with
    | compound hl hb h hb₁ hr =>
      cases h with
      | indVec hk h =>
        have hplaced := Placed.operands h
        simp only [List.mem_cons, List.not_mem_nil, or_false, forall_eq_or_imp, forall_eq,
          List.flatMap_cons, List.flatMap_nil, List.append_nil, ← List.append_assoc] at hplaced
        exact ((hplaced ⟨fun _ => ihl, fun _ => iht, fun _ => ihm, fun _ => ihb, fun _ =>
          ihp⟩).after [_]).bracketed
  | arrow s domain rest ihd ihr =>
    cases h with
    | compound hl hb h hb₁ hr =>
      cases h with
      | arrow hk hb' hd hb₁' hrest =>
        have hplaced := Placed.separated hrest fun a ha _ => ihr a ha
        rw [← Expr.placesOfList_eq, ← Expr.todosOfList_eq] at hplaced
        exact (((((ihd hd).after _).before _).append hplaced).after [_]).bracketed
  | quant s q binders body ihb ih =>
    cases h with
    | compound hl hb h hb₁ hr =>
      cases h with
      | quant hk hb' hl' hb₁' hs hb₂ hr' hb₃ h =>
        have hplaced := Placed.typedBinders hs fun b hb _ => ihb b hb
        rw [← Expr.placesOfBinders_eq, ← Expr.todosOfBinders_eq] at hplaced
        exact (((((hplaced.after _).before _).append (((ih h).after _).after [_])).after
          [_]).after _).after [_]
          |>.bracketed
  | lambda s parameters body ih =>
    cases h with
    | compound hl hb h hb₁ hr =>
      cases h with
      | lambda hk hb' hl' hb₁' hs hb₂ hr' hb₃ h =>
        have hplaced := Placed.sites hs
        exact (((((hplaced.after _).before _).append (((ih h).after _).after [_])).after
          [_]).after _).after [_]
          |>.bracketed
  | apply s function arguments ihf iha =>
    cases h with
    | compound hl hb h hb₁ hr =>
      cases h with
      | apply hf hb' ha =>
        have hplaced := Placed.separated ha fun a ha _ => iha a ha
        rw [← Expr.placesOfList_eq, ← Expr.todosOfList_eq] at hplaced
        exact (((ihf hf).before _).append hplaced).bracketed

theorem TopLevel.placed {form : Form} (h : TopLevel ts form) :
    Placed ts form.places form.todos := by
  cases h with
  | claim hl hb hk hb₁ hs hb₂ h hb₃ hr | define hl hb hk hb₁ hs hb₂ h hb₃ hr =>
    exact (((((((hs.placed.after _).before _).append h.placed).before _).before [_]).after
      [_]).after _).after [_]
  | checkSame hl hb hk h hb₁ hr =>
    have hplaced := Placed.operands h fun _ _ _ => Expression.placed
    simp only [List.flatMap_cons, List.flatMap_nil, List.append_nil,
      ← List.append_assoc] at hplaced
    exact ((((hplaced.before _).before [_]).after [_]).after _).after [_]
  | expression h => exact h.placed

theorem Program.placed {forms : List Form} (h : Program ts forms) :
    Placed ts (forms.flatMap Form.places) (forms.flatMap Form.todos) := by
  obtain ⟨used, b, rfl, hs, hb⟩ := program_iff_series.1 h
  exact (Placed.series hs fun _ _ _ => TopLevel.placed).before b

/-! ## Programs one after the other -/

/-- A form ends in a lexeme that is no blank. -/
theorem TopLevel.ends {form : Form} (h : TopLevel ts form) : ∃ r, ts.getLast? = some r ∧
    r.token ≠ .blank := by
  cases h with
  | claim _ _ _ _ _ _ _ _ hr | define _ _ _ _ _ _ _ _ hr | checkSame _ _ _ _ _ hr =>
    simp [List.getLast?_cons, hr]
  | expression h =>
    cases h with
    | compound _ _ _ _ hr => simp [List.getLast?_cons, hr]
    | const h | todo h | number h | var h => exact ⟨_, rfl, h ▸ nofun⟩
    | tick _ ha => exact ⟨_, rfl, ha.ne_blank⟩

theorem Series.ends {forms : List Form} (h : Series TopLevel ts forms) :
    ∀ r, ts.getLast? = some r → r.token ≠ .blank := by
  induction h with
  | nil => nofun
  | cons _ h _ ih =>
    intro r hr
    obtain ⟨r', hlast, hr'⟩ := h.ends
    rw [List.getLast?_append, List.getLast?_append, hlast, Option.some_or] at hr
    rcases Option.or_eq_some_iff.1 hr with hr | ⟨-, hr⟩
    · exact ih r hr
    · cases hr
      exact hr'

/-- Blanks after a program are no part of it. -/
theorem Program.of_append_blanks {b : List Lexeme} {forms : List Form}
    (h : Program (ts ++ b) forms) (hb : Blanks b) :
    Program ts forms := by
  rw [program_iff_series] at h ⊢
  obtain ⟨used, b', heq, hs, hb'⟩ := h
  rcases List.append_eq_append_iff.1 heq with ⟨mid, rfl, rfl⟩ | ⟨mid, rfl, rfl⟩
  · -- The forms do not end in any of the blanks.
    rcases List.eq_nil_or_concat mid with rfl | ⟨mid, r, rfl⟩
    · exact ⟨ts, [], (List.append_nil ts).symm, by rwa [List.append_nil] at hs, .nil⟩
    · exact (hs.ends r (by simp) (hb r (by simp))).elim
  · exact ⟨used, mid, rfl, hs, fun l hl => hb' l (List.mem_append_left _ hl)⟩

/-- Neither are blanks before it. -/
theorem Program.of_blanks_append {b : List Lexeme} {forms : List Form}
    (h : Program (b ++ ts) forms) (hb : Blanks b) :
    Program ts forms := by
  rw [program_iff_series] at h ⊢
  obtain ⟨used, b', heq, hs, hb'⟩ := h
  cases hs with
  | nil =>
    rw [List.nil_append] at heq
    subst heq
    exact ⟨[], ts, rfl, .nil, fun l hl => hb' l (List.mem_append_right _ hl)⟩
  | @cons c us us' form forms hc h hs =>
    -- The first form begins after all of the blanks.
    obtain ⟨l, us, rfl, hl⟩ := Reader.topLevel_begins h
    have hskip := congrArg Reader.skip heq
    rw [Reader.skip_append hb] at hskip
    simp only [List.append_assoc, List.cons_append] at hskip
    rw [Reader.skip_append_cons hc (Reader.ne_blank_of_startsExpression hl)] at hskip
    obtain ⟨c', hc', hts⟩ := Reader.exists_blanks_append_skip ts
    refine ⟨c' ++ (l :: us) ++ us', b', ?_, .cons hc' h hs, hb'⟩
    rw [hts, hskip]
    simp only [List.append_assoc, List.cons_append]

theorem Program.append {ts' b : List Lexeme} {forms forms' : List Form} (h : Program ts forms)
    (hb : Blanks b) (h' : Program ts' forms') : Program (ts ++ b ++ ts') (forms ++ forms') := by
  rw [program_iff_series] at h h' ⊢
  obtain ⟨used, c, rfl, hs, hc⟩ := h
  obtain ⟨used', c', rfl, hs', hc'⟩ := h'
  by_cases hempty : forms' = []
  · subst hempty
    cases hs'
    refine ⟨used, c ++ b ++ c', ?_, by rwa [List.append_nil], (hc.append hb).append hc'⟩
    simp only [List.append_assoc, List.nil_append]
  · refine ⟨used ++ (c ++ b ++ used'), c', ?_,
      hs.append (hs'.spaced (hc.append hb) hempty), hc'⟩
    simp only [List.append_assoc]

end Grammar

/-! ## Programs as texts -/

open Grammar

theorem mapError_eq_ok_iff {ε δ α : Type} {f : ε → δ} {r : Except ε α} {a : α} :
    r.mapError f = .ok a ↔ r = .ok a := by
  cases r <;> simp [Except.mapError]

theorem parse_eq_ok_iff {source : String} {forms : List Form} :
    parse source = .ok forms ↔ ∃ ts, lex source = .ok ts ∧ Program ts forms := by
  rw [parse, bind_eq_ok_iff]
  simp only [mapError_eq_ok_iff, parseLexemes_eq_ok_iff]

/-- The expression is read from a stretch of some text. -/
def Expr.Written (e : Expr) : Prop := ∃ source xs ts, lex source = .ok xs ∧ ts <:+: xs ∧
  Expression ts e

theorem Expr.Written.of_lexemes (size : Nat) {source : String} {xs : List Lexeme} {e : Expr}
    (hlex : lex source = .ok xs) (h : parseLexemesAsExpression size xs = .ok e) :
    e.Written := by
  obtain ⟨_, hexpr, _⟩ := (parseLexemesAsExpression_eq_ok_iff size xs e).1 h
  exact ⟨source, _, _, hlex, ⟨_, _, rfl⟩, hexpr⟩

/-- The parts of an application stand behind its opening bracket, so that none of them has its
place. -/
theorem Expr.Written.span_not_mem {s : Span} {f : Expr} {arguments : List Expr}
    (h : (Expr.apply s f arguments).Written) : s ∉ f.places ++ Expr.placesOfList arguments := by
  obtain ⟨source, xs, _, hlex, hinfix, hexpr⟩ := h
  have hstarts := (Lexer.pairwise_start_of_lex hlex).sublist hinfix.sublist
  cases hexpr with
  | @compound l r b ts b₁ _ hl hb h hb₁ hr =>
    cases h with
    | apply hf hb' ha =>
      have hplaced := Placed.separated ha fun _ _ _ => Expression.placed
      rw [← Expr.placesOfList_eq, ← Expr.todosOfList_eq] at hplaced
      intro hs
      obtain ⟨before, used, after, l', _, hts, hl', _, hspan⟩ :=
        ((hf.placed.before _).append hplaced).spans _ hs
      have hused : l' ∈ used := List.mem_of_mem_head? hl'
      rw [hts] at hstarts
      have hlt : l.start < l'.start := List.rel_of_pairwise_cons hstarts (by simp [hused])
      exact hlt.ne (congrArg Span.start hspan)

/-- Two programs with a newline between them are one program. Its forms are those of the first
one, and then those of the second one with their places shifted. -/
theorem parse_append_newline {a b : String} {forms forms' : List Form}
    (ha : parse a = .ok forms) (hb : parse b = .ok forms') :
    parse (a ++ "\n" ++ b) = .ok
      (forms ++ forms'.map (Form.relocate (Span.shift (a.utf8ByteSize + 1)))) := by
  obtain ⟨xs, hxs, hforms⟩ := parse_eq_ok_iff.1 ha
  obtain ⟨ys, hys, hforms'⟩ := parse_eq_ok_iff.1 hb
  obtain ⟨body, tail, lead, rest, seam, rfl, rfl, htail, hlead, hseam, hlex⟩ :=
    lex_append_newline hxs hys
  exact parse_eq_ok_iff.2
    ⟨_, hlex, (hforms.of_append_blanks htail).append hseam
      ((hforms'.of_blanks_append hlead).shift _)⟩

end PieChecker.Surface
