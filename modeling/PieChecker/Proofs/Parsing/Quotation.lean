import PieChecker.Proofs.Parsing.Programs
import PieChecker.Proofs.Places

set_option autoImplicit false

/-!
# Quotation

A `TODO` in a text stands for an unfinished part of the program, and a name for a variable. Not
so if they are quoted: `'TODO`, `'x` and `(quote x)` are atoms. Going through the lexemes one
after the other, it is enough to know whether the next one is quoted, and for that whether it is
the first one in brackets. So unfinished parts and names can be listed without reading the
program, and they are those of the trees that the program is read as, in the same order.
-/

namespace PieChecker

/-- Keywords other than `quote` and `TODO`. -/
def Keyword.isOrdinary : Keyword → Bool
  | quote | todo => false
  | _ => true

/-- The tokens that are listed where they are not quoted. -/
def Token.isListed : Token → Bool
  | .name | .keyword .todo => true
  | _ => false

theorem Keyword.isListed_of_isOrdinary {k : Keyword} (hk : k.isOrdinary = true) :
    (Token.keyword k).isListed = false := by
  cases k with
  | todo => cases hk
  | _ => rfl

/-- What the lexemes before a place in a text say about the next one. -/
inductive Quotation where
  | plain
  /-- It is the first one in brackets, where the keyword `quote` may stand. -/
  | opened
  | quoted
  deriving DecidableEq

namespace Quotation

/-- What is known after one more token. -/
def next (q : Quotation) : Token → Quotation
  | .blank => q
  | .opening => opened
  | .tick => quoted
  | .keyword .quote => if q = opened then quoted else plain
  | .keyword _ | .name | .number | .closing => plain

/-- What is known after more lexemes. -/
def after (q : Quotation) (ts : List Lexeme) : Quotation :=
  ts.foldl (fun q l => q.next l.token) q

/-- The places of the `TODO`s that are not quoted. -/
def todos (q : Quotation) : List Lexeme → List Span
  | [] => []
  | l :: ts =>
    if l.token = .keyword .todo ∧
      q ≠ quoted then l.span :: (q.next l.token).todos ts else (q.next l.token).todos ts

theorem todos_append (q : Quotation) (ts ts' : List Lexeme) :
    q.todos (ts ++ ts') = q.todos ts ++ (q.after ts).todos ts' := by
  induction ts generalizing q with
  | nil => rfl
  | cons l ts ih =>
    simp only [List.cons_append, todos, ih]
    split <;> rfl

/-- The names that are not quoted. -/
def names (q : Quotation) : List Lexeme → List String
  | [] => []
  | l :: ts =>
    if l.token = .name ∧ q ≠ quoted then l.text ::
      (q.next l.token).names ts else (q.next l.token).names ts

theorem names_append (q : Quotation) (ts ts' : List Lexeme) :
    q.names (ts ++ ts') = q.names ts ++ (q.after ts).names ts' := by
  induction ts generalizing q with
  | nil => rfl
  | cons l ts ih =>
    simp only [List.cons_append, names, ih]
    split <;> rfl

theorem after_append (q : Quotation) (ts ts' : List Lexeme) :
    q.after (ts ++ ts') = (q.after ts).after ts' :=
  List.foldl_append

theorem next_keyword {k : Keyword} (hk : k.isOrdinary = true) (q : Quotation) :
    q.next (.keyword k) = plain := by
  cases k with
  | quote => cases hk
  | _ => rfl

theorem plain_ne_quoted : plain ≠ quoted := nofun

theorem opened_ne_quoted : opened ≠ quoted := nofun

/-- These are the places of `TODO`s and the names that are found, and the text may go on in any
way. -/
structure Finds (q : Quotation) (ts : List Lexeme) (spans : List Span)
    (xs : List String) : Prop where
  todos_eq : q.todos ts = spans
  names_eq : q.names ts = xs
  after_eq : q.after ts = plain

namespace Finds

open Surface.Grammar

variable {q : Quotation} {ts ts' b b₁ b₂ b₃ : List Lexeme} {l r : Lexeme}
  {spans spans' : List Span} {xs xs' : List String}

theorem append (h : q.Finds ts spans xs) (h' : plain.Finds ts' spans' xs') :
    q.Finds (ts ++ ts') (spans ++ spans') (xs ++ xs') where
  todos_eq := by rw [todos_append, h.todos_eq, h.after_eq, h'.todos_eq]
  names_eq := by rw [names_append, h.names_eq, h.after_eq, h'.names_eq]
  after_eq := by rw [after_append, h.after_eq, h'.after_eq]

/-! ## Single lexemes -/

theorem nil : plain.Finds [] [] [] := ⟨rfl, rfl, rfl⟩

theorem cons {t : Token} (hl : l.token = t) (ht : t.isListed = false)
    (h : (q.next t).Finds ts spans xs) :
    q.Finds (l :: ts) spans xs := by
  have htodo : t ≠ .keyword .todo := by
    rintro rfl
    cases ht
  have hname : t ≠ .name := by
    rintro rfl
    cases ht
  subst hl
  refine ⟨?_, ?_, h.after_eq⟩
  · rw [todos, if_neg fun hl => htodo hl.1, h.todos_eq]
  · rw [names, if_neg fun hl => hname hl.1, h.names_eq]

theorem spaced (hb : Blanks b) (h : q.Finds ts spans xs) : q.Finds (b ++ ts) spans xs := by
  induction b with
  | nil => exact h
  | cons l b ih =>
    obtain ⟨hl, hb⟩ := List.forall_mem_cons.1 hb
    exact cons hl rfl (ih hb)

theorem before (h : q.Finds ts spans xs) (hb : Blanks b) : q.Finds (ts ++ b) spans xs := by
  have happend := h.append (nil.spaced hb)
  rwa [List.append_nil, List.append_nil, List.append_nil] at happend

theorem opening (hl : l.token = .opening) (h : opened.Finds ts spans xs) :
    q.Finds (l :: ts) spans xs := cons hl rfl h

theorem closing (hr : r.token = .closing) (h : plain.Finds ts spans xs) :
    q.Finds (r :: ts) spans xs := cons hr rfl h

theorem keyword {k : Keyword} (hl : l.token = .keyword k) (hk : k.isOrdinary = true)
    (h : plain.Finds ts spans xs) :
    q.Finds (l :: ts) spans xs := by
  refine cons hl (Keyword.isListed_of_isOrdinary hk) ?_
  rwa [next_keyword hk]

theorem name (hl : l.token = .name) (hq : q ≠ quoted) : q.Finds [l] [] [l.text] where
  todos_eq := by
    rw [todos, hl, if_neg (by simp)]
    rfl
  names_eq := by
    rw [names, if_pos ⟨hl, hq⟩]
    rfl
  after_eq := by
    rw [after, List.foldl_cons, hl]
    rfl

theorem todo (hl : l.token = .keyword .todo) (hq : q ≠ quoted) : q.Finds [l] [l.span] [] where
  todos_eq := by
    rw [todos, if_pos ⟨hl, hq⟩]
    rfl
  names_eq := by
    rw [names, hl, if_neg (by simp)]
    rfl
  after_eq := by
    rw [after, List.foldl_cons, hl]
    rfl

/-- What is quoted is an atom, whatever it is. -/
theorem quotable (hl : Quotable l) : quoted.Finds [l] [] [] := by
  have hnext : quoted.next l.token = plain := by
    rcases hl with hl | ⟨k, hl⟩
    · rw [hl]
      rfl
    · rw [hl]
      cases k <;> rfl
  refine ⟨?_, ?_, hnext⟩
  · rw [todos, if_neg fun hl => hl.2 rfl]
    rfl
  · rw [names, if_neg fun hl => hl.2 rfl]
    rfl

/-! ## Rules of the grammar -/

theorem closed (h : q.Finds ts spans xs) (hr : r.token = .closing) :
    q.Finds (ts ++ [r]) spans xs := by
  have happend := h.append (closing hr nil)
  rwa [List.append_nil, List.append_nil] at happend

theorem bracketed (hl : l.token = .opening) (hb : Blanks b) (h : opened.Finds ts spans xs)
    (hb₁ : Blanks b₁) (hr : r.token = .closing) :
    q.Finds (l :: (b ++ ts ++ b₁ ++ [r])) spans xs :=
  opening hl (((h.spaced hb).before hb₁).closed hr)

/-- Parameters in brackets, and what follows them. -/
theorem parameters (hb : Blanks b) (hl : l.token = .opening) (hb₁ : Blanks b₁)
    (h : opened.Finds ts spans xs) (hb₂ : Blanks b₂) (hr : r.token = .closing) (hb₃ : Blanks b₃)
    (h' : plain.Finds ts' spans' xs') :
    plain.Finds (b ++ l :: (b₁ ++ ts ++ b₂ ++ r :: (b₃ ++ ts'))) (spans ++ spans')
      (xs ++ xs') :=
  spaced hb (opening hl (((h.spaced hb₁).before hb₂).append (closing hr (h'.spaced hb₃))))

section Items

variable {α : Type} {Item : List Lexeme → α → Prop} {as : List α} {todosOf : α → List Span}
  {namesOf : α → List String}

theorem series (h : Series Item ts as)
    (hitem : ∀ a ∈ as, ∀ ts, Item ts a → plain.Finds ts (todosOf a) (namesOf a)) :
    plain.Finds ts (as.flatMap todosOf) (as.flatMap namesOf) := by
  induction h with
  | nil => exact nil
  | cons hb h _ ih =>
    obtain ⟨ha, has⟩ := List.forall_mem_cons.1 hitem
    exact ((ha _ h).spaced hb).append (ih has)

theorem separated (h : Separated Item ts as) (hq : q ≠ quoted)
    (hitem : ∀ a ∈ as, ∀ ts q, q ≠ quoted → Item ts a → q.Finds ts (todosOf a) (namesOf a)) :
    q.Finds ts (as.flatMap todosOf) (as.flatMap namesOf) := by
  induction h generalizing q with
  | one h =>
    rw [List.flatMap_singleton, List.flatMap_singleton]
    exact hitem _ List.mem_cons_self _ q hq h
  | more h hb _ ih =>
    obtain ⟨ha, has⟩ := List.forall_mem_cons.1 hitem
    exact ((ha _ q hq h).before hb).append (ih plain_ne_quoted has)

end Items

end Finds

end Quotation

/-- Every name that occurs in a form, in the order of the text. Quoted names do not count. -/
def Surface.Form.names : Surface.Form → List String
  | claim site e | define site e => site.name :: e.names
  | checkSame ty left right => ty.names ++ left.names ++ right.names
  | expression e => e.names

namespace Surface.Grammar

open Quotation

variable {ts : List Lexeme}

theorem BindingSite.finds {site : Site} (h : BindingSite ts site) {q : Quotation}
    (hq : q ≠ quoted) :
    q.Finds ts [] [site.name] := by
  obtain ⟨h⟩ := h
  exact .name h hq

/-- Wherever the expression is written and not quoted, its unfinished parts and its names are
found. -/
def Found (e : Expr) : Prop :=
  ∀ (ts : List Lexeme) (q : Quotation), q ≠ quoted → Expression ts e →
    q.Finds ts e.todos e.names

theorem Found.operands {es : List Expr} (hes : ∀ e ∈ es, Found e)
    (h : Series Expression ts es) :
    plain.Finds ts (es.flatMap Expr.todos) (es.flatMap Expr.names) :=
  .series h fun e he ts h => hes e he ts plain plain_ne_quoted h

theorem Found.list {es : List Expr} (hes : ∀ e ∈ es, Found e) (h : Separated Expression ts es) :
    plain.Finds ts (Expr.todosOfList es) (Expr.namesOfList es) := by
  rw [Expr.todosOfList_eq, Expr.namesOfList_eq]
  exact .separated h plain_ne_quoted hes

theorem Found.binders {binders : List (Site × Expr)} (hbinders : ∀ b ∈ binders, Found b.2)
    (h : Separated TypedBinder ts binders) :
    opened.Finds ts (Expr.todosOfBinders binders) (Expr.namesOfBinders binders) := by
  rw [Expr.todosOfBinders_eq, Expr.namesOfBinders_eq]
  refine .separated h opened_ne_quoted fun b hb ts q hq h => ?_
  obtain ⟨hl, hb₁, hs, hb₂, h, hb₃, hr⟩ := h
  have hty := hbinders _ hb _ plain plain_ne_quoted h
  have hfinds := (((hs.finds opened_ne_quoted).spaced hb₁).before hb₂).append hty
  exact .opening hl ((hfinds.before hb₃).closed hr)

theorem finds_sites {sites : List Site} (h : Separated BindingSite ts sites) :
    opened.Finds ts [] (sites.map Site.name) := by
  have hfinds := Finds.separated h opened_ne_quoted fun _ _ _ _ hq h => h.finds hq
  rwa [List.flatMap_eq_nil_iff.2 fun _ _ => rfl, ← List.map_eq_flatMap] at hfinds

/-- Every expression is found, by the rules that it is written by. -/
theorem found (e : Expr) : Found e := by
  induction e using Expr.induction with
  | const s c =>
    intro ts q _ h
    cases h with
    | const h => exact .keyword h rfl .nil
    | compound _ _ h => cases h
  | todo s =>
    intro ts q hq h
    cases h with
    | todo h => exact .todo h hq
    | compound _ _ h => cases h
  | var s x =>
    intro ts q hq h
    cases h with
    | var h => exact .name h hq
    | compound _ _ h => cases h
  | number s k =>
    intro ts q _ h
    cases h with
    | number hl h => exact .cons hl rfl .nil
    | compound _ _ h => cases h
  | quote s a =>
    intro ts q _ h
    cases h with
    | tick hl ha => exact .cons hl rfl (.quotable ha)
    | compound hl hb h hb₁ hr =>
      cases h with
      | quote hk hb' ha =>
        exact .bracketed hl hb (.cons hk rfl (.spaced hb' (.quotable ha))) hb₁ hr
  | unary s o a iha =>
    rintro _ q _ ⟨hl, hb, h, hb₁, hr⟩
    cases h with
    | unary hk h =>
      have hfinds := Found.operands (List.forall_mem_singleton.2 iha) h
      rw [List.flatMap_singleton, List.flatMap_singleton] at hfinds
      exact .bracketed hl hb (.keyword hk rfl hfinds) hb₁ hr
  | binary s o a b iha ihb =>
    rintro _ q _ ⟨hl, hb, h, hb₁, hr⟩
    cases h with
    | binary hk h =>
      have hfinds := fun hes => Found.operands hes h
      simp only [List.mem_cons, List.not_mem_nil, or_false, forall_eq_or_imp, forall_eq,
        List.flatMap_cons, List.flatMap_nil, List.append_nil] at hfinds
      exact .bracketed hl hb (.keyword hk rfl (hfinds ⟨iha, ihb⟩)) hb₁ hr
  | ternary s o a b c iha ihb ihc =>
    rintro _ q _ ⟨hl, hb, h, hb₁, hr⟩
    cases h with
    | ternary hk h =>
      have hfinds := fun hes => Found.operands hes h
      simp only [List.mem_cons, List.not_mem_nil, or_false, forall_eq_or_imp, forall_eq,
        List.flatMap_cons, List.flatMap_nil, List.append_nil, ← List.append_assoc] at hfinds
      exact .bracketed hl hb (.keyword hk rfl (hfinds ⟨iha, ihb, ihc⟩)) hb₁ hr
  | quaternary s o a b c d iha ihb ihc ihd =>
    rintro _ q _ ⟨hl, hb, h, hb₁, hr⟩
    cases h with
    | quaternary hk h =>
      have hfinds := fun hes => Found.operands hes h
      simp only [List.mem_cons, List.not_mem_nil, or_false, forall_eq_or_imp, forall_eq,
        List.flatMap_cons, List.flatMap_nil, List.append_nil, ← List.append_assoc] at hfinds
      exact .bracketed hl hb (.keyword hk rfl (hfinds ⟨iha, ihb, ihc, ihd⟩)) hb₁ hr
  | indVec s l t m b p ihl iht ihm ihb ihp =>
    rintro _ q _ ⟨hl, hb, h, hb₁, hr⟩
    cases h with
    | indVec hk h =>
      have hfinds := fun hes => Found.operands hes h
      simp only [List.mem_cons, List.not_mem_nil, or_false, forall_eq_or_imp, forall_eq,
        List.flatMap_cons, List.flatMap_nil, List.append_nil, ← List.append_assoc] at hfinds
      exact .bracketed hl hb (.keyword hk rfl (hfinds ⟨ihl, iht, ihm, ihb, ihp⟩)) hb₁ hr
  | arrow s domain rest ihd ihr =>
    rintro _ q _ ⟨hl, hb, h, hb₁, hr⟩
    cases h with
    | arrow hk hb' hd hb₁' hrest =>
      have hdomain := ihd _ plain plain_ne_quoted hd
      have hfinds := ((hdomain.spaced hb').before hb₁').append (Found.list ihr hrest)
      exact .bracketed hl hb (.keyword hk rfl hfinds) hb₁ hr
  | quant s q binders body ihb ih =>
    rintro _ q _ ⟨hl, hb, h, hb₁, hr⟩
    cases h with
    | quant hk hb' hl' hb₁' hs hb₂ hr' hb₃ h =>
      have hbody := ih _ plain plain_ne_quoted h
      have hfinds := Finds.parameters hb' hl' hb₁' (Found.binders ihb hs) hb₂ hr' hb₃ hbody
      exact .bracketed hl hb (.keyword hk rfl hfinds) hb₁ hr
  | lambda s parameters body ih =>
    rintro _ q _ ⟨hl, hb, h, hb₁, hr⟩
    cases h with
    | lambda hk hb' hl' hb₁' hs hb₂ hr' hb₃ h =>
      have hbody := ih _ plain plain_ne_quoted h
      have hfinds := Finds.parameters hb' hl' hb₁' (finds_sites hs) hb₂ hr' hb₃ hbody
      exact .bracketed hl hb (.keyword hk rfl hfinds) hb₁ hr
  | apply s function arguments ihf iha =>
    rintro _ q _ ⟨hl, hb, h, hb₁, hr⟩
    cases h with
    | apply hf hb' ha =>
      have hfunction := ihf _ opened opened_ne_quoted hf
      exact .bracketed hl hb ((hfunction.before hb').append (Found.list iha ha)) hb₁ hr

theorem TopLevel.finds {form : Form} (h : TopLevel ts form) :
    plain.Finds ts form.todos form.names := by
  cases h with
  | claim hl hb hk hb₁ hs hb₂ h hb₃ hr | define hl hb hk hb₁ hs hb₂ h hb₃ hr =>
    have hexpr := found _ _ plain plain_ne_quoted h
    have hfinds := (((hs.finds plain_ne_quoted).spaced hb₁).before hb₂).append hexpr
    exact .opening hl (.spaced hb (.keyword hk rfl ((hfinds.before hb₃).closed hr)))
  | checkSame hl hb hk h hb₁ hr =>
    have hfinds := Found.operands (fun e _ => found e) h
    simp only [List.flatMap_cons, List.flatMap_nil, List.append_nil,
      ← List.append_assoc] at hfinds
    exact .opening hl (.spaced hb (.keyword hk rfl ((hfinds.before hb₁).closed hr)))
  | expression h => exact found _ _ plain plain_ne_quoted h

theorem Program.finds {forms : List Form} (h : Program ts forms) :
    plain.Finds ts (forms.flatMap Form.todos) (forms.flatMap Form.names) := by
  obtain ⟨used, b, rfl, hs, hb⟩ := program_iff_series.1 h
  exact (Finds.series hs fun _ _ _ => TopLevel.finds).before hb

/-- The unfinished parts of a program are the `TODO`s that are not quoted, in the order of the
text. -/
theorem Program.todos_eq {forms : List Form} (h : Program ts forms) :
    forms.flatMap Form.todos = plain.todos ts :=
  h.finds.todos_eq.symm

theorem LoneExpression.finds {e : Expr} (h : LoneExpression ts e) :
    plain.Finds ts e.todos e.names := by
  obtain ⟨hb, h, hb₁⟩ := h
  exact ((found _ _ plain plain_ne_quoted h).spaced hb).before hb₁

/-- Only the second `TODO` of `(cons 'TODO TODO)` leaves something unfinished. -/
example : plain.todos [⟨.opening, 0, "("⟩, ⟨.keyword (.binary .cons), 1, "cons"⟩,
    ⟨.blank, 5, " "⟩, ⟨.tick, 6, "'"⟩, ⟨.keyword .todo, 7, "TODO"⟩, ⟨.blank, 11, " "⟩,
    ⟨.keyword .todo, 12, "TODO"⟩, ⟨.closing, 16, ")"⟩] = [⟨12, 16⟩] :=
  rfl

end Surface.Grammar

end PieChecker
