import PieChecker.Proofs.Lexing.Stretches
import PieChecker.Proofs.Parsing.Placement

set_option autoImplicit false

/-!
# The constituents of an expression

The immediate sub-expressions of an expression and the names that it binds, in the order of the
text. The lexemes of an expression are arranged by them: apart from its constituents there are
only brackets that pair up, and lexemes that are no brackets. All that is said here about the
places and the brackets of an expression follows from this arrangement, so the rules of the
grammar are gone through only once.
-/

namespace PieChecker.Surface

open Lexer (Balanced Consecutive)

/-- An expression, or a name in binding position. -/
inductive Constituent where
  | site (site : Site)
  | expr (e : Expr)

/-- Where a constituent stands in the text. -/
def Constituent.span : Constituent → Span
  | .site x => x.span
  | .expr e => e.span

namespace Expr

/-- The immediate sub-expressions of an expression and the names that it binds, in the order of
the text. -/
def constituents : Expr → List Constituent
  | const _ _ | todo _ | var _ _ | number _ _ | quote _ _ => []
  | unary _ _ a => [.expr a]
  | binary _ _ a b => [.expr a, .expr b]
  | ternary _ _ a b c => [.expr a, .expr b, .expr c]
  | quaternary _ _ a b c d => [.expr a, .expr b, .expr c, .expr d]
  | indVec _ l t m b p => [.expr l, .expr t, .expr m, .expr b, .expr p]
  | arrow _ domain rest => .expr domain :: rest.map .expr
  | quant _ _ binders body => (binders.flatMap fun b => [.site b.1, .expr b.2]) ++ [.expr body]
  | lambda _ parameters body => parameters.map .site ++ [.expr body]
  | apply _ function arguments => .expr function :: arguments.map .expr

/-- Induction over expressions, by their immediate sub-expressions. -/
theorem induction_constituents {motive : Expr → Prop} (e : Expr)
    (step : ∀ e, (∀ a, .expr a ∈ e.constituents → motive a) → motive e) : motive e := by
  induction e using Expr.induction with
  | const | todo | var | number | quote => exact step _ (by simp [constituents])
  | unary s o a iha => exact step _ (by simpa [constituents] using iha)
  | binary s o a b iha ihb => exact step _ (by simp [constituents, iha, ihb])
  | ternary s o a b c iha ihb ihc => exact step _ (by simp [constituents, iha, ihb, ihc])
  | quaternary s o a b c d iha ihb ihc ihd =>
    exact step _ (by simp [constituents, iha, ihb, ihc, ihd])
  | indVec s l t m b p ihl iht ihm ihb ihp =>
    exact step _ (by simp [constituents, ihl, iht, ihm, ihb, ihp])
  | arrow s domain rest ihd ihr => exact step _ (by simpa [constituents] using ⟨ihd, ihr⟩)
  | quant s q binders body ihb ih =>
    refine step _ fun a ha => ?_
    simp only [constituents, List.mem_append, List.mem_flatMap, List.mem_cons,
      List.not_mem_nil, or_false, reduceCtorEq, false_or, Constituent.expr.injEq] at ha
    obtain ⟨b, hb, rfl⟩ | rfl := ha
    · exact ihb b hb
    · exact ih
  | lambda s parameters body ih => exact step _ (by simpa [constituents] using ih)
  | apply s function arguments ihf iha =>
      exact step _ (by simpa [constituents] using ⟨ihf, iha⟩)

/-- The first expression is a node of the second one. -/
inductive Within : Expr → Expr → Prop where
  | self (e : Expr) : Within e e
  | inside {d a e : Expr} (ha : .expr a ∈ e.constituents) (h : Within d a) : Within d e

end Expr

/-- The name and the expressions of a form, in the order of the text. -/
def Form.constituents : Form → List Constituent
  | claim site e | define site e => [.site site, .expr e]
  | checkSame ty left right => [.expr ty, .expr left, .expr right]
  | expression e => [.expr e]

namespace Grammar

variable {ts : List Lexeme} {e : Expr} {c : Constituent} {cs : List Constituent}

/-- The lexemes derive a constituent. -/
inductive IsConstituent : List Lexeme → Constituent → Prop where
  | site {ts : List Lexeme} {site : Site} (h : BindingSite ts site) :
      IsConstituent ts (.site site)
  | expr {ts : List Lexeme} {e : Expr} (h : Expression ts e) : IsConstituent ts (.expr e)

/-- The constituents stand among the lexemes, in order, between brackets that pair up and other
lexemes. -/
inductive Arranged : List Lexeme → List Constituent → Prop where
  | nil : Arranged [] []
  | plain {l : Lexeme} {ts : List Lexeme} {cs : List Constituent}
      (hopening : l.token ≠ .opening)
    (hclosing : l.token ≠ .closing) (h : Arranged ts cs) : Arranged (l :: ts) cs
  | constituent {used ts : List Lexeme} {c : Constituent} {cs : List Constituent}
      (hc : IsConstituent used c)
    (h : Arranged ts cs) : Arranged (used ++ ts) (c :: cs)
  | group {l r : Lexeme} {inner ts : List Lexeme} {cs cs' : List Constituent}
      (hl : l.token = .opening)
    (hinner : Arranged inner cs) (hr : r.token = .closing) (h : Arranged ts cs') :
    Arranged (l :: (inner ++ r :: ts)) (cs ++ cs')

/-! ## Arrangements -/

namespace Arranged

variable {ts' : List Lexeme} {cs' : List Constituent}

theorem append (h : Arranged ts cs) (h' : Arranged ts' cs') :
    Arranged (ts ++ ts') (cs ++ cs') := by
  induction h with
  | nil => exact h'
  | plain hopening hclosing _ ih => exact .plain hopening hclosing ih
  | constituent hc _ ih =>
    rw [List.append_assoc]
    exact .constituent hc ih
  | group hl hinner hr _ _ ih =>
    rw [List.cons_append, List.append_assoc, List.cons_append, List.append_assoc]
    exact .group hl hinner hr ih

theorem one (hc : IsConstituent ts c) : Arranged ts [c] := by
  have h := constituent hc .nil
  rwa [List.append_nil] at h

theorem keyword {k : Lexeme} {keyword : Keyword} (hk : k.token = .keyword keyword)
    (h : Arranged ts cs) :
    Arranged (k :: ts) cs :=
  .plain (by simp [hk]) (by simp [hk]) h

theorem quotable {a : Lexeme} (ha : Quotable a) : Arranged [a] [] := by
  rcases ha with ha | ⟨k, ha⟩
  · exact .plain (by simp [ha]) (by simp [ha]) .nil
  · exact .keyword ha .nil

theorem blanks {b : List Lexeme} (hb : Blanks b) : Arranged b [] := by
  induction b with
  | nil => exact .nil
  | cons l b ih =>
    obtain ⟨hl, hb⟩ := List.forall_mem_cons.1 hb
    exact .plain (by simp [hl]) (by simp [hl]) (ih hb)

theorem after {b : List Lexeme} (h : Arranged ts cs) (hb : Blanks b) : Arranged (b ++ ts) cs :=
  (blanks hb).append h

theorem before {b : List Lexeme} (h : Arranged ts cs) (hb : Blanks b) :
    Arranged (ts ++ b) cs := by
  have happend := h.append (blanks hb)
  rwa [List.append_nil] at happend

theorem enclosed {l r : Lexeme} (hl : l.token = .opening) (h : Arranged ts cs)
    (hr : r.token = .closing) :
    Arranged (l :: (ts ++ [r])) cs := by
  have hgroup := group hl h hr .nil
  rwa [List.append_nil] at hgroup

/-- A group and what comes after it. -/
theorem bracketed {l r : Lexeme} {b b₁ : List Lexeme} (hl : l.token = .opening) (hb : Blanks b)
    (h : Arranged ts cs) (hb₁ : Blanks b₁) (hr : r.token = .closing) (h' : Arranged ts' cs') :
    Arranged (l :: (b ++ ts ++ b₁ ++ r :: ts')) (cs ++ cs') :=
  .group hl ((h.after hb).before hb₁) hr h'

theorem series {α : Type} {Item : List Lexeme → α → Prop} {as : List α}
    {f : α → List Constituent} (h : Series Item ts as)
    (hitem : ∀ ts a, Item ts a → Arranged ts (f a)) : Arranged ts (as.flatMap f) := by
  induction h with
  | nil => exact .nil
  | cons hb h _ ih => exact ((hitem _ _ h).after hb).append ih

theorem operands {es : List Expr} (h : Series Expression ts es) :
    Arranged ts (es.map .expr) := by
  rw [List.map_eq_flatMap]
  exact series h fun _ _ he => one (.expr he)

theorem expressions {es : List Expr} (h : Separated Expression ts es) :
    Arranged ts (es.map .expr) :=
  operands (h.series .nil)

theorem sites {sites : List Site} (h : Separated BindingSite ts sites) :
    Arranged ts (sites.map .site) := by
  rw [List.map_eq_flatMap]
  exact series (h.series .nil) fun _ _ hsite => one (.site hsite)

theorem typedBinder {b : Site × Expr} (h : TypedBinder ts b) :
    Arranged ts [.site b.1, .expr b.2] := by
  obtain ⟨hl, hb, hs, hb₁, h, hb₂, hr⟩ := h
  exact enclosed hl (((((one (.site hs)).after hb).before hb₁).append (one (.expr h))).before
    hb₂) hr

theorem typedBinders {binders : List (Site × Expr)} (h : Separated TypedBinder ts binders) :
    Arranged ts (binders.flatMap fun b => [.site b.1, .expr b.2]) :=
  series (h.series .nil) fun _ _ => typedBinder

/-- Every constituent has lexemes of its own among them. -/
theorem exists_infix (h : Arranged ts cs) (hc : c ∈ cs) :
    ∃ used, used <:+: ts ∧ IsConstituent used c := by
  induction h with
  | nil => cases hc
  | plain _ _ _ ih =>
    obtain ⟨used, hused, h⟩ := ih hc
    exact ⟨used, hused.trans (List.suffix_cons _ _).isInfix, h⟩
  | @constituent us ts d cs hd _ ih =>
    rcases List.mem_cons.1 hc with rfl | hc
    · exact ⟨us, (List.prefix_append us ts).isInfix, hd⟩
    · obtain ⟨used, hused, h⟩ := ih hc
      exact ⟨used, hused.trans (List.suffix_append us ts).isInfix, h⟩
  | @group l r inner ts cs cs' _ _ _ _ ihinner ih =>
    rcases List.mem_append.1 hc with hc | hc
    · obtain ⟨used, hused, h⟩ := ihinner hc
      exact ⟨used, hused.trans ⟨[l], r :: ts, rfl⟩, h⟩
    · obtain ⟨used, hused, h⟩ := ih hc
      exact ⟨used, hused.trans ⟨l :: (inner ++ [r]), [], by simp⟩, h⟩

/-- The brackets pair up if they do in each constituent. -/
theorem balanced (h : Arranged ts cs) (hcs : ∀ c ∈ cs, ∀ us, IsConstituent us c → Balanced us) :
    Balanced ts := by
  induction h with
  | nil => exact .nil
  | plain hopening hclosing _ ih => exact .plain hopening hclosing (ih hcs)
  | constituent hc _ ih =>
    obtain ⟨hfirst, hcs⟩ := List.forall_mem_cons.1 hcs
    exact (hfirst _ hc).append (ih hcs)
  | group hl _ hr _ ihinner ih =>
    obtain ⟨hinner, hrest⟩ := List.forall_mem_append.1 hcs
    exact .group hl (ihinner hinner) hr (ih hrest)

end Arranged

/-! ## The arrangement of an expression -/

/-- What stands between the brackets of an expression is arranged by its constituents. -/
theorem Compound.arranged {s : Span} (h : Compound s ts e) : Arranged ts e.constituents ∧
    e.span = s := by
  cases h with
  | unary hk h | binary hk h | ternary hk h | quaternary hk h | indVec hk h =>
    exact ⟨.keyword hk (.operands h), rfl⟩
  | arrow hk hb hd hb₁ hr =>
    exact ⟨.keyword hk ((((Arranged.one (.expr hd)).after hb).before hb₁).append
      (.expressions hr)), rfl⟩
  | quant hk hb hl hb₁ hs hb₂ hr hb₃ h =>
    have hbody := (Arranged.one (.expr h)).after hb₃
    exact ⟨.keyword hk ((Arranged.bracketed hl hb₁ (.typedBinders hs) hb₂ hr hbody).after hb),
      rfl⟩
  | lambda hk hb hl hb₁ hs hb₂ hr hb₃ h =>
    have hbody := (Arranged.one (.expr h)).after hb₃
    exact ⟨.keyword hk ((Arranged.bracketed hl hb₁ (.sites hs) hb₂ hr hbody).after hb), rfl⟩
  | quote hk hb ha =>
    exact ⟨.keyword hk ((Arranged.quotable ha).after hb), rfl⟩
  | apply hf hb ha =>
    exact ⟨((Arranged.one (.expr hf)).before hb).append (.expressions ha), rfl⟩

/-- The lexemes of an expression: no constituents at all, or brackets around them. -/
inductive Layout : List Lexeme → Expr → Prop where
  | atom {ts : List Lexeme} {e : Expr} {l r : Lexeme} (hcs : e.constituents = [])
      (h : Arranged ts [])
    (hl : ts.head? = some l) (hr : ts.getLast? = some r) (hspan : e.span = ⟨l.start, r.stop⟩) :
    Layout ts e
  | bracketed {l r : Lexeme} {ts : List Lexeme} {e : Expr} (hl : l.token = .opening)
      (h : Arranged ts e.constituents)
    (hr : r.token = .closing) (hspan : e.span = ⟨l.start, r.stop⟩) : Layout (l :: (ts ++ [r])) e

theorem Expression.layout (h : Expression ts e) : Layout ts e := by
  cases h with
  | compound hl hb h hb₁ hr =>
    obtain ⟨harranged, hspan⟩ := h.arranged
    exact .bracketed hl ((harranged.after hb).before hb₁) hr hspan
  | const h | todo h | number h | var h =>
    exact .atom rfl (.plain (by simp [h]) (by simp [h]) .nil) rfl rfl rfl
  | tick hl ha =>
    exact .atom rfl (.plain (by simp [hl]) (by simp [hl]) (.quotable ha)) rfl rfl rfl

theorem Layout.ne_nil (h : Layout ts e) : ts ≠ [] := by
  cases h with
  | atom _ _ hl =>
    rintro rfl
    cases hl
  | bracketed => exact List.cons_ne_nil _ _

/-- All of its lexemes are in the place of an expression. -/
theorem Layout.span_eq {start stop : Nat} (h : Layout ts e) (hts : Consecutive start ts stop) :
    e.span = ⟨start, stop⟩ := by
  cases h with
  | atom _ _ hl hr hspan => rw [hspan, hts.start_of_head? hl, hts.stop_of_getLast? hr]
  | bracketed _ _ _ hspan =>
    rw [hspan, hts.start_of_head? rfl,
      hts.stop_of_getLast? (by rw [← List.cons_append, List.getLast?_concat])]

theorem Expression.balanced (h : Expression ts e) : Balanced ts := by
  induction e using Expr.induction_constituents generalizing ts with
  | step e ih =>
    have hcs : ∀ c ∈ e.constituents, ∀ us, IsConstituent us c → Balanced us := by
      intro c hc us hus
      cases hus with
      | site h =>
        obtain ⟨h⟩ := h
        exact .plain (by simp [h]) (by simp [h]) .nil
      | expr h => exact ih _ hc h
    cases h.layout with
    | atom _ h => exact h.balanced nofun
    | bracketed hl h hr => exact .group hl (h.balanced hcs) hr .nil

theorem Expression.exists_infix_constituent (h : Expression ts e) (hc : c ∈ e.constituents) :
    ∃ used, used <:+: ts ∧ IsConstituent used c := by
  cases h.layout with
  | atom hcs =>
    rw [hcs] at hc
    cases hc
  | @bracketed l r us _ _ harranged =>
    obtain ⟨used, hused, h⟩ := harranged.exists_infix hc
    exact ⟨used, hused.trans ⟨[l], [r], rfl⟩, h⟩

/-- A node has lexemes of its own among those of the expression. -/
theorem Expression.exists_infix {d : Expr} (h : Expression ts e) (hd : d.Within e) :
    ∃ used, used <:+: ts ∧ Expression used d := by
  induction hd generalizing ts with
  | self => exact ⟨ts, List.infix_rfl, h⟩
  | inside ha _ ih =>
    obtain ⟨us, hus, ha⟩ := h.exists_infix_constituent ha
    cases ha with
    | expr ha =>
      obtain ⟨used, hused, hd⟩ := ih ha
      exact ⟨used, hused.trans hus, hd⟩

/-! ## Places of constituents -/

theorem IsConstituent.ne_nil (h : IsConstituent ts c) : ts ≠ [] := by
  cases h with
  | site h =>
    obtain ⟨-⟩ := h
    exact List.cons_ne_nil _ _
  | expr h => exact h.layout.ne_nil

theorem IsConstituent.span_eq {start stop : Nat} (h : IsConstituent ts c)
    (hts : Consecutive start ts stop) :
    c.span = ⟨start, stop⟩ := by
  cases h with
  | site h =>
    obtain ⟨-⟩ := h
    cases hts with
    | cons hstart _ hrest =>
      cases hrest
      rw [Constituent.span, ← hstart]
      rfl
  | expr h => exact h.layout.span_eq hts

/-- Constituents follow each other within the place of the lexemes. -/
theorem Arranged.ordered {start stop : Nat} (h : Arranged ts cs)
    (hts : Consecutive start ts stop) :
    (∀ c ∈ cs, start ≤ c.span.start ∧ c.span.stop ≤ stop) ∧ cs.Pairwise fun c d =>
      c.span.stop ≤ d.span.start := by
  induction h generalizing start stop with
  | nil => exact ⟨nofun, .nil⟩
  | plain _ _ _ ih =>
    cases hts with
    | cons hstart hl hts =>
      obtain ⟨hinside, hordered⟩ := ih hts
      exact ⟨fun c hc => ⟨hl.le.trans (hinside c hc).1, (hinside c hc).2⟩, hordered⟩
  | constituent hc _ ih =>
    obtain ⟨mid, hused, hts⟩ := Consecutive.append_iff.1 hts
    obtain ⟨hinside, hordered⟩ := ih hts
    have hspan := hc.span_eq hused
    have hle := hused.le
    have hle' := hts.le
    refine ⟨List.forall_mem_cons.2 ⟨?_, fun d hd => ?_⟩, .cons (fun d hd => ?_) hordered⟩
    · rw [hspan]
      exact ⟨Nat.le_refl _, hle'⟩
    · exact ⟨hle.trans (hinside d hd).1, (hinside d hd).2⟩
    · rw [hspan]
      exact (hinside d hd).1
  | group _ _ _ _ ihinner ih =>
    cases hts with
    | cons hstart hl hts =>
      obtain ⟨mid, hinner, hts⟩ := Consecutive.append_iff.1 hts
      cases hts with
      | cons hmid hr hts =>
        obtain ⟨hinside, hordered⟩ := ihinner hinner
        obtain ⟨hinside', hordered'⟩ := ih hts
        have hle := hinner.le
        have hle' := hts.le
        refine ⟨List.forall_mem_append.2 ⟨fun c hc => ?_, fun c hc => ?_⟩,
          List.pairwise_append.2 ⟨hordered, hordered', fun c hc d hd => ?_⟩⟩
        · have hc := hinside c hc
          omega
        · have hc := hinside' c hc
          omega
        · have hc := hinside c hc
          have hd := hinside' d hd
          omega

/-- The constituents of an expression follow each other strictly inside its place. -/
theorem Expression.ordered {start stop : Nat} (h : Expression ts e)
    (hts : Consecutive start ts stop) :
    (∀ c ∈ e.constituents, start < c.span.start ∧ c.span.stop < stop) ∧
      e.constituents.Pairwise fun c d => c.span.stop ≤ d.span.start := by
  cases h.layout with
  | atom hcs =>
    rw [hcs]
    exact ⟨nofun, .nil⟩
  | bracketed _ harranged =>
    cases hts with
    | cons hstart hl hts =>
      obtain ⟨mid, hinner, hlast⟩ := Consecutive.append_iff.1 hts
      obtain ⟨hinside, hordered⟩ := harranged.ordered hinner
      refine ⟨fun c hc => ?_, hordered⟩
      have hc := hinside c hc
      have hlt := hlast.lt (List.cons_ne_nil _ _)
      omega

/-! ## Programs -/

theorem TopLevel.arranged {form : Form} (h : TopLevel ts form) :
    Arranged ts form.constituents := by
  cases h with
  | claim hl hb hk hb₁ hs hb₂ h hb₃ hr | define hl hb hk hb₁ hs hb₂ h hb₃ hr =>
    have hinner :=
      ((((Arranged.one (.site hs)).after hb₁).before hb₂).append (.one (.expr h))).before hb₃
    have hform := Arranged.enclosed hl ((hinner.keyword hk).after hb) hr
    rwa [List.append_assoc, List.cons_append] at hform
  | checkSame hl hb hk h hb₁ hr =>
    have hinner := (Arranged.operands h).before hb₁
    have hform := Arranged.enclosed hl ((hinner.keyword hk).after hb) hr
    rwa [List.append_assoc, List.cons_append] at hform
  | expression h => exact .one (.expr h)

theorem Program.arranged {forms : List Form} (h : Program ts forms) :
    Arranged ts (forms.flatMap Form.constituents) := by
  obtain ⟨used, b, rfl, hs, hb⟩ := program_iff_series.1 h
  exact (Arranged.series hs fun _ _ => TopLevel.arranged).before hb

theorem LoneExpression.arranged (h : LoneExpression ts e) : Arranged ts [.expr e] := by
  obtain ⟨hb, h, hb₁⟩ := h
  exact ((Arranged.one (.expr h)).after hb).before hb₁

end Grammar

end PieChecker.Surface
