import Mathlib.Data.Nat.Digits.Defs
import PieChecker.Surface.Reader

set_option autoImplicit false

/-!
# The grammar

The context-free grammar of programs, over lexemes. Every rule is an inductive predicate that
says which lexemes derive which syntax tree, with one constructor for each alternative;
alternatives are not ordered, and a repetition may end wherever what follows it allows. Nothing
here mentions a reader.

`item ++ blanks` in the rules, one item or more with blanks between them, is `Separated`. The
operands of an operator with a fixed number of them are a `Series`, each with blanks before it.
-/

namespace PieChecker.Surface.Grammar

/-- Any number of blanks and comments. -/
def Blanks (ts : List Lexeme) : Prop := ∀ l ∈ ts, l.token = .blank

/-- One item or more, with blanks between them. -/
inductive Separated {α : Type} (Item : List Lexeme → α → Prop) :
    List Lexeme → List α → Prop where
  | one {ts : List Lexeme} {a : α} (h : Item ts a) : Separated Item ts [a]
  | more {ts b ts' : List Lexeme} {a : α} {as : List α} (h : Item ts a) (hb : Blanks b)
      (hs : Separated Item ts' as) :
    Separated Item (ts ++ b ++ ts') (a :: as)

/-- A series of items, with blanks before each. -/
inductive Series {α : Type} (Item : List Lexeme → α → Prop) : List Lexeme → List α → Prop where
  | nil : Series Item [] []
  | cons {b ts ts' : List Lexeme} {a : α} {as : List α} (hb : Blanks b) (h : Item ts a)
      (hs : Series Item ts' as) :
    Series Item (b ++ ts ++ ts') (a :: as)

/-- A name in binding position. -/
inductive BindingSite : List Lexeme → Site → Prop where
  | name {l : Lexeme} (h : l.token = .name) : BindingSite [l] ⟨l.span, l.text⟩

/-- A lexeme that can be quoted. -/
inductive Quotable (l : Lexeme) : Prop where
  | name (h : l.token = .name)
  | keyword (k : Keyword) (h : l.token = .keyword k)

/-- The number that a text spells in decimal digits, the most significant one first. -/
def decimal (text : String) : Nat :=
  Nat.ofDigits 10 (text.toList.map fun c => c.toNat - '0'.toNat).reverse

mutual

/-- Expressions. -/
inductive Expression : List Lexeme → Expr → Prop where
  | compound {l r : Lexeme} {b ts b₁ : List Lexeme} {e : Expr} (hl : l.token = .opening)
      (hb : Blanks b)
    (h : Compound ⟨l.start, r.stop⟩ ts e) (hb₁ : Blanks b₁) (hr : r.token = .closing) :
    Expression (l :: (b ++ ts ++ b₁ ++ [r])) e
  | const {l : Lexeme} {c : Const} (h : l.token = .keyword (.const c)) :
      Expression [l] (.const l.span c)
  | todo {l : Lexeme} (h : l.token = .keyword .todo) : Expression [l] (.todo l.span)
  | tick {l a : Lexeme} (hl : l.token = .tick) (ha : Quotable a) :
      Expression [l, a] (.quote ⟨l.start, a.stop⟩ a.text)
  /-- A number must fit 64 bits. -/
  | number {l : Lexeme} (hl : l.token = .number) (h : decimal l.text < 2 ^ 64) :
    Expression [l] (.number l.span (decimal l.text))
  | var {l : Lexeme} (h : l.token = .name) : Expression [l] (.var l.span l.text)

/-- What may stand between the brackets of an expression with the given span. -/
inductive Compound : Span → List Lexeme → Expr → Prop where
  | unary {s : Span} {k : Lexeme} {o : Unary} {ts : List Lexeme} {a : Expr}
      (hk : k.token = .keyword (.unary o))
    (h : Series Expression ts [a]) : Compound s (k :: ts) (.unary s o a)
  | binary {s : Span} {k : Lexeme} {o : Binary} {ts : List Lexeme} {a b : Expr}
      (hk : k.token = .keyword (.binary o))
    (h : Series Expression ts [a, b]) : Compound s (k :: ts) (.binary s o a b)
  | ternary {s : Span} {k : Lexeme} {o : Ternary} {ts : List Lexeme} {a b c : Expr}
    (hk : k.token = .keyword (.ternary o)) (h : Series Expression ts [a, b, c]) :
    Compound s (k :: ts) (.ternary s o a b c)
  | quaternary {s : Span} {k : Lexeme} {o : Quaternary} {ts : List Lexeme} {a b c d : Expr}
    (hk : k.token = .keyword (.quaternary o)) (h : Series Expression ts [a, b, c, d]) :
    Compound s (k :: ts) (.quaternary s o a b c d)
  | indVec {s : Span} {k : Lexeme} {ts : List Lexeme} {length target motive base step : Expr}
    (hk : k.token = .keyword .indVec)
    (h : Series Expression ts [length, target, motive, base, step]) :
    Compound s (k :: ts) (.indVec s length target motive base step)
  | arrow {s : Span} {k : Lexeme} {b ts b₁ ts' : List Lexeme} {domain : Expr} {rest : List Expr}
    (hk : k.token = .keyword .arrow) (hb : Blanks b) (hd : Expression ts domain)
    (hb₁ : Blanks b₁) (hr : Separated Expression ts' rest) :
    Compound s (k :: (b ++ ts ++ b₁ ++ ts')) (.arrow s domain rest)
  | quant {s : Span} {k l r : Lexeme} {q : Quantifier} {b b₁ ts b₂ b₃ ts' : List Lexeme}
    {binders : List (Site × Expr)} {body : Expr} (hk : k.token = .keyword (.quant q))
    (hb : Blanks b) (hl : l.token = .opening) (hb₁ : Blanks b₁)
    (hs : Separated TypedBinder ts binders) (hb₂ : Blanks b₂) (hr : r.token = .closing)
    (hb₃ : Blanks b₃) (h : Expression ts' body) :
    Compound s (k :: (b ++ l :: (b₁ ++ ts ++ b₂ ++ r :: (b₃ ++ ts')))) (.quant s q binders body)
  | lambda {s : Span} {k l r : Lexeme} {b b₁ ts b₂ b₃ ts' : List Lexeme} {sites : List Site}
      {body : Expr}
    (hk : k.token = .keyword .lambda) (hb : Blanks b) (hl : l.token = .opening)
    (hb₁ : Blanks b₁) (hs : Separated BindingSite ts sites) (hb₂ : Blanks b₂)
    (hr : r.token = .closing) (hb₃ : Blanks b₃) (h : Expression ts' body) :
    Compound s (k :: (b ++ l :: (b₁ ++ ts ++ b₂ ++ r :: (b₃ ++ ts')))) (.lambda s sites body)
  | quote {s : Span} {k a : Lexeme} {b : List Lexeme} (hk : k.token = .keyword .quote)
      (hb : Blanks b)
    (ha : Quotable a) : Compound s (k :: (b ++ [a])) (.quote s a.text)
  | apply {s : Span} {ts b ts' : List Lexeme} {function : Expr} {arguments : List Expr}
      (hf : Expression ts function)
    (hb : Blanks b) (ha : Separated Expression ts' arguments) :
    Compound s (ts ++ b ++ ts') (.apply s function arguments)

/-- A name and its type in brackets. -/
inductive TypedBinder : List Lexeme → Site × Expr → Prop where
  | mk {l r : Lexeme} {b ts b₁ ts' b₂ : List Lexeme} {site : Site} {ty : Expr}
      (hl : l.token = .opening) (hb : Blanks b)
    (hs : BindingSite ts site) (hb₁ : Blanks b₁) (h : Expression ts' ty) (hb₂ : Blanks b₂)
    (hr : r.token = .closing) : TypedBinder (l :: (b ++ ts ++ b₁ ++ ts' ++ b₂ ++ [r]))
      (site, ty)

end

/-- Top-level forms. -/
inductive TopLevel : List Lexeme → Form → Prop where
  | claim {l k r : Lexeme} {b b₁ ts b₂ ts' b₃ : List Lexeme} {site : Site} {ty : Expr}
      (hl : l.token = .opening)
    (hb : Blanks b) (hk : k.token = .keyword (.opener .claim)) (hb₁ : Blanks b₁)
    (hs : BindingSite ts site) (hb₂ : Blanks b₂) (h : Expression ts' ty) (hb₃ : Blanks b₃)
    (hr : r.token = .closing) :
    TopLevel (l :: (b ++ k :: (b₁ ++ ts ++ b₂ ++ ts' ++ b₃ ++ [r]))) (.claim site ty)
  | define {l k r : Lexeme} {b b₁ ts b₂ ts' b₃ : List Lexeme} {site : Site} {term : Expr}
      (hl : l.token = .opening)
    (hb : Blanks b) (hk : k.token = .keyword (.opener .define)) (hb₁ : Blanks b₁)
    (hs : BindingSite ts site) (hb₂ : Blanks b₂) (h : Expression ts' term) (hb₃ : Blanks b₃)
    (hr : r.token = .closing) :
    TopLevel (l :: (b ++ k :: (b₁ ++ ts ++ b₂ ++ ts' ++ b₃ ++ [r]))) (.define site term)
  | checkSame {l k r : Lexeme} {b ts b₁ : List Lexeme} {ty left right : Expr}
      (hl : l.token = .opening)
    (hb : Blanks b) (hk : k.token = .keyword (.opener .checkSame))
    (h : Series Expression ts [ty, left, right]) (hb₁ : Blanks b₁) (hr : r.token = .closing) :
    TopLevel (l :: (b ++ k :: (ts ++ b₁ ++ [r]))) (.checkSame ty left right)
  | expression {ts : List Lexeme} {e : Expr} (h : Expression ts e) : TopLevel ts (.expression e)

/-- A program: forms with blanks around them. -/
inductive Program : List Lexeme → List Form → Prop where
  | empty {b b₁ : List Lexeme} (hb : Blanks b) (hb₁ : Blanks b₁) : Program (b ++ b₁) []
  | forms {b ts b₁ : List Lexeme} {forms : List Form} (hb : Blanks b)
      (hs : Separated TopLevel ts forms)
    (hb₁ : Blanks b₁) : Program (b ++ ts ++ b₁) forms

/-- One expression with blanks around it. -/
inductive LoneExpression : List Lexeme → Expr → Prop where
  | mk {b ts b₁ : List Lexeme} {e : Expr} (hb : Blanks b) (h : Expression ts e)
      (hb₁ : Blanks b₁) :
    LoneExpression (b ++ ts ++ b₁) e

/-! ## Blanks and series -/

theorem Quotable.ne_blank {l : Lexeme} (h : Quotable l) : l.token ≠ .blank := by
  rcases h with h | ⟨k, h⟩ <;> rw [h] <;> nofun

theorem Blanks.nil : Blanks [] := nofun

theorem Blanks.append {b b' : List Lexeme} (h : Blanks b) (h' : Blanks b') :
    Blanks (b ++ b') := by
  intro l hl
  rcases List.mem_append.1 hl with hl | hl
  · exact h l hl
  · exact h' l hl

section Series

variable {α : Type} {Item : List Lexeme → α → Prop}

/-- Items with blanks between them and before the first one are a series. -/
theorem Separated.series {ts : List Lexeme} {as : List α} (h : Separated Item ts as)
    {b : List Lexeme} (hb : Blanks b) : Series Item (b ++ ts) as := by
  induction h generalizing b with
  | one h =>
    have hone := Series.cons hb h .nil
    rwa [List.append_nil] at hone
  | more h hb' _ ih =>
    have hmore := Series.cons hb h (ih hb')
    simpa only [List.append_assoc] using hmore

/-- More blanks may stand before the first item. -/
theorem Series.spaced {ts : List Lexeme} {as : List α} (h : Series Item ts as) {b : List Lexeme}
    (hb : Blanks b) (hne : as ≠ []) : Series Item (b ++ ts) as := by
  cases h with
  | nil => exact (hne rfl).elim
  | cons hb' h hs =>
    rw [List.append_assoc, ← List.append_assoc, ← List.append_assoc]
    exact .cons (hb.append hb') h hs

theorem Series.append {ts ts' : List Lexeme} {as as' : List α} (h : Series Item ts as)
    (h' : Series Item ts' as') :
    Series Item (ts ++ ts') (as ++ as') := by
  induction h with
  | nil => exact h'
  | cons hb ha _ ih =>
    rw [List.append_assoc]
    exact .cons hb ha ih

theorem Separated.ne_nil {ts : List Lexeme} {as : List α} (h : Separated Item ts as) :
    as ≠ [] := by
  cases h <;> exact List.cons_ne_nil _ _

/-- A series with at least one item is blanks and then items with blanks between them. -/
theorem Series.separated {ts : List Lexeme} {as : List α} (h : Series Item ts as)
    (hne : as ≠ []) :
    ∃ b ts', ts = b ++ ts' ∧ Blanks b ∧ Separated Item ts' as := by
  induction h with
  | nil => exact (hne rfl).elim
  | @cons b ts ts' a as hb h hs ih =>
    cases as with
    | nil =>
      cases hs
      exact ⟨b, ts, List.append_nil _, hb, .one h⟩
    | cons a' as =>
      obtain ⟨b', ts'', rfl, hb', hrest⟩ := ih (List.cons_ne_nil _ _)
      exact ⟨b, ts ++ b' ++ ts'', by simp only [List.append_assoc], hb, .more h hb' hrest⟩

end Series

end PieChecker.Surface.Grammar
