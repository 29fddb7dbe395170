import Mathlib.Data.List.Forall2
import PieChecker.Core.Printer
import PieChecker.Proofs.Parsing.Grammar
import PieChecker.Proofs.Printing.Phrases

set_option autoImplicit false

/-!
# Expanding grouped forms

A surface expression stands for a core term in which every binder has one parameter, every
function one argument and every numeral its constructors. `Expr.expand` is that term, without
any typing. What the notation cannot express is filled in: the payload of an unfinished part,
the type of the results of `cong`, the binder of an arrow or a `Pair`.

The rest of the module says of which phrases the grammar makes an expression with a given
expansion, one lemma for each form.
-/

namespace PieChecker.Surface

open Lexer (Phrase Trail IsWord HasToken lexemesFrom)
open Grammar

/-- An operator with two operands. -/
def Binary.expand : Binary → Core → Core → Core
  | the => .binary .the
  | pair => .quant .sigma ""
  | cons => .binary .cons
  | listCons => .binary .listCons
  | indAbsurd => .binary .indAbsurd
  | trans => .binary .trans
  | cong => fun target function => .ternary .cong target .univ function
  | vec => .binary .vec
  | vecCons => .binary .vecCons
  | either => .binary .either

/-- An operator with three operands. A simple eliminator takes the type of its base from an
annotation. -/
def Ternary.expand : Ternary → Core → Core → Core → Option Core
  | whichNat, target, .the ty base, step => some (.quaternary .whichNat target ty base step)
  | iterNat, target, .the ty base, step => some (.quaternary .iterNat target ty base step)
  | recNat, target, .the ty base, step => some (.quaternary .recNat target ty base step)
  | recList, target, .the ty base, step => some (.quaternary .recList target ty base step)
  | whichNat, _, _, _ | iterNat, _, _, _ | recNat, _, _, _ | recList, _, _, _ => none
  | equal, a, b, c => some (.ternary .equal a b c)
  | replace, a, b, c => some (.ternary .replace a b c)
  | indEq, a, b, c => some (.ternary .indEq a b c)

/-- An operator with four operands. -/
def Quaternary.expand : Quaternary → Core → Core → Core → Core → Core
  | indNat => .quaternary .indNat
  | indList => .quaternary .indList
  | indEither => .quaternary .indEither

/-- Functions from each type to the next. -/
def arrows : Core → List Core → Core
  | ty, [] => ty
  | domain, ty :: tys => .pi "" domain (arrows ty tys)

mutual

/-- The core term that an expression stands for, if the base of every simple eliminator is
annotated. -/
def Expr.expand : Expr → Option Core
  | .const _ c => some (.const c)
  | .todo _ => some (.todo ⟨0, 0⟩ .univ)
  | .var _ x => some (.var x)
  | .number _ n => some (.numeral n)
  | .quote _ a => some (.quote a)
  | .unary _ o a => return .unary o (← a.expand)
  | .binary _ o a b => return o.expand (← a.expand) (← b.expand)
  | .ternary _ o a b c => do o.expand (← a.expand) (← b.expand) (← c.expand)
  | .quaternary _ o a b c d =>
    return o.expand (← a.expand) (← b.expand) (← c.expand) (← d.expand)
  | .indVec _ a b c d e =>
    return .indVec (← a.expand) (← b.expand) (← c.expand) (← d.expand) (← e.expand)
  | .arrow _ domain rest => return arrows (← domain.expand) (← expandList rest)
  | .quant _ q binders body =>
    return (← expandBinders binders).foldr (fun b family => .quant q b.1 b.2 family)
      (← body.expand)
  | .lambda _ parameters body =>
    return parameters.foldr (fun site body => .lam site.name body) (← body.expand)
  | .apply _ function arguments =>
      return (← expandList arguments).foldl .apply (← function.expand)

/-- The core terms of a list of expressions. -/
def expandList : List Expr → Option (List Core)
  | [] => some []
  | e :: es => return (← e.expand) :: (← expandList es)

/-- The names and types of a list of binders. -/
def expandBinders : List (Site × Expr) → Option (List (String × Core))
  | [] => some []
  | (site, ty) :: binders => return (site.name, ← ty.expand) :: (← expandBinders binders)

end

/-- The expression expands to the term. -/
def Expands (e : Expr) (t : Core) : Prop := e.expand = some t

/-- The binding site has the name. -/
def Named (site : Site) (x : String) : Prop := site.name = x

/-- The typed binder has the name, and its type expands to the term. -/
def Binds (binder : Site × Expr) (b : String × Core) : Prop :=
  Named binder.1 b.1 ∧ Expands binder.2 b.2

theorem expandList_eq_some {es : List Expr} {ts : List Core} (h : List.Forall₂ Expands es ts) :
    expandList es = some ts := by
  induction h with
  | nil => rfl
  | cons he _ ih =>
    rw [Expands] at he
    simp [expandList, he, ih]

theorem expandBinders_eq_some {binders : List (Site × Expr)} {bs : List (String × Core)}
    (h : List.Forall₂ Binds binders bs) : expandBinders binders = some bs := by
  induction h with
  | nil => rfl
  | @cons binder b _ _ hb _ ih =>
    obtain ⟨hname, hty⟩ := hb
    rw [Named] at hname
    rw [Expands] at hty
    simp [expandBinders, hname, hty, ih]

theorem foldr_lam_eq {sites : List Site} {xs : List String} (h : List.Forall₂ Named sites xs)
    (body : Core) :
    sites.foldr (fun site body => Core.lam site.name body) body = xs.foldr .lam body := by
  induction h with
  | nil => rfl
  | cons hx _ ih =>
    rw [Named] at hx
    simp [hx, ih]

/-! ## Texts that the grammar reads -/

section Displays

variable {α β : Type}

/-- The text is a phrase, and wherever it starts the grammar derives from it an item with this
meaning. -/
def Displays (Item : List Lexeme → α → Prop) (R : α → β → Prop) (text : String)
    (b : β) : Prop :=
  ∃ l, text.toList = l.flatten ∧ Phrase l ∧ ∀ position, ∃ a,
    Item (lexemesFrom position l) a ∧ R a b

/-- The text is phrases, each after a space, and the grammar derives from them items with these
meanings. -/
def DisplaysAll (Item : List Lexeme → α → Prop) (R : α → β → Prop) (text : String)
    (bs : List β) : Prop :=
  ∃ m, text.toList = m.flatten ∧ Trail m ∧
    ∀ position, ∃ as, Series Item (lexemesFrom position m) as ∧ List.Forall₂ R as bs

variable {Item : List Lexeme → α → Prop} {R : α → β → Prop} {text texts : String} {b : β}
  {bs cs : List β}

theorem DisplaysAll.nil : DisplaysAll Item R "" [] :=
  ⟨[], rfl, .nil, fun _ => ⟨[], .nil, .nil⟩⟩

/-- A space at a position. -/
def spaceAt (position : Nat) : Lexeme := ⟨.blank, position, " "⟩

/-- An opening bracket at a position. -/
def openingAt (position : Nat) : Lexeme := ⟨.opening, position, "("⟩

/-- A closing bracket at a position. -/
def closingAt (position : Nat) : Lexeme := ⟨.closing, position, ")"⟩

theorem openingAt_token (position : Nat) : (openingAt position).token = .opening := rfl

theorem closingAt_token (position : Nat) : (closingAt position).token = .closing := rfl

theorem blanks_spaceAt (position : Nat) : Blanks [spaceAt position] := by
  intro x hx
  rw [List.mem_singleton.1 hx]
  rfl

theorem lexemesFrom_space (position : Nat) (l : List (List Char)) :
    lexemesFrom position ([' '] :: l) = spaceAt position :: lexemesFrom (position + 1) l :=
  rfl

theorem lexemesFrom_group (position : Nat) (l : List (List Char)) :
    lexemesFrom position (['('] :: (l ++ [[')']])) =
      openingAt position :: (lexemesFrom (position + 1) l ++
        [closingAt (position + 1 + Text.byteSize l.flatten)]) := by
  rw [lexemesFrom, Lexer.lexemesFrom_append]
  rfl

theorem DisplaysAll.cons (h : Displays Item R text b) (hs : DisplaysAll Item R texts bs) :
    DisplaysAll Item R (" " ++ text ++ texts) (b :: bs) := by
  obtain ⟨l, htext, hl, h⟩ := h
  obtain ⟨m, htexts, hm, hs⟩ := hs
  refine ⟨[' '] :: (l ++ m), by simp [htext, htexts], .cons hl hm, fun position => ?_⟩
  obtain ⟨a, ha, hab⟩ := h (position + 1)
  obtain ⟨as, has, habs⟩ := hs (position + 1 + Text.byteSize l.flatten)
  refine ⟨a :: as, ?_, .cons hab habs⟩
  rw [lexemesFrom_space, Lexer.lexemesFrom_append]
  exact .cons (blanks_spaceAt position) ha has

theorem DisplaysAll.append (h : DisplaysAll Item R text bs) (h' : DisplaysAll Item R texts cs) :
    DisplaysAll Item R (text ++ texts) (bs ++ cs) := by
  obtain ⟨l, htext, hl, h⟩ := h
  obtain ⟨m, htexts, hm, h'⟩ := h'
  refine ⟨l ++ m, by simp [htext, htexts], hl.append hm, fun position => ?_⟩
  obtain ⟨as, has, hR⟩ := h position
  obtain ⟨as', has', hR'⟩ := h' (position + Text.byteSize l.flatten)
  refine ⟨as ++ as', ?_, List.rel_append hR hR'⟩
  rw [Lexer.lexemesFrom_append]
  exact has.append has'

theorem displays_word {t : Token} (hword : IsWord text.toList) (ht : HasToken text.toList t)
    (h : ∀ x : Lexeme, x.token = t → x.text = text → ∃ a, Item [x] a ∧ R a b) :
    Displays Item R text b := by
  refine ⟨[text.toList], by simp, .word hword ⟨t, ht⟩, fun position => ?_⟩
  exact h _ (Lexer.tokenOf_of_hasToken ht) (String.ofList_toList)

end Displays

/-- The text is an expression that stands for the term. -/
abbrev Shows : String → Core → Prop := Displays Expression Expands

/-- The text is expressions, each after a space, that stand for the terms. -/
abbrev ShowsAll : String → List Core → Prop := DisplaysAll Expression Expands

/-! ## Words -/

theorem isWord_spelling {k : Keyword} {text : String} (h : text ∈ k.spellings) :
    IsWord text.toList := by
  have hall : ∀ k ∈ Keyword.all, ∀ text ∈ k.spellings,
      text.toList ≠ [] ∧ text.toList.all (!Lexer.isDelimiter ·) = true := by decide +kernel
  obtain ⟨hne, hword⟩ := hall k k.mem_all text h
  exact ⟨hne, by simpa using hword⟩

theorem hasToken_spelling {k : Keyword} {text : String} (h : text ∈ k.spellings) :
    HasToken text.toList (.keyword k) :=
  .word (isWord_spelling h) (.keyword (by rwa [String.ofList_toList]))

theorem not_isDigit_spelling {k : Keyword} {text : String} (h : text ∈ k.spellings) :
    ∃ c ∈ text.toList, Lexer.isDigit c = false := by
  have hall : ∀ k ∈ Keyword.all, ∀ text ∈ k.spellings, text.toList.any (!Lexer.isDigit ·) =
      true := by decide +kernel
  simpa using hall k k.mem_all text h

theorem shows_const (c : Const) : Shows c.spelling (.const c) := by
  have hc : c.spelling ∈ (Keyword.const c).spellings := by simp [Keyword.spellings]
  exact displays_word (isWord_spelling hc) (hasToken_spelling hc) fun x hx _ =>
    ⟨_, .const hx, rfl⟩

theorem shows_todo : Shows "TODO" (.todo ⟨0, 0⟩ .univ) := by
  have h : "TODO" ∈ Keyword.todo.spellings := by decide
  exact displays_word (isWord_spelling h) (hasToken_spelling h) fun x hx _ => ⟨_, .todo hx, rfl⟩

/-- Names and keywords are words. -/
theorem isWord_of_hasToken {cs : List Char} {t : Token} (h : HasToken cs t)
    (ht : t = .name ∨ ∃ k, t = .keyword k) :
    IsWord cs := by
  cases h with
  | word h _ => exact h
  | blank | comment | opening | closing | tick => simp at ht

theorem shows_var {x : String} (h : HasToken x.toList .name) : Shows x (.var x) := by
  refine displays_word (isWord_of_hasToken h (.inl rfl)) h ?_
  rintro l hl rfl
  exact ⟨_, .var hl, rfl⟩

theorem displays_name {x : String} (h : HasToken x.toList .name) :
    Displays BindingSite Named x x := by
  refine displays_word (isWord_of_hasToken h (.inl rfl)) h ?_
  rintro l hl rfl
  exact ⟨_, .name hl, rfl⟩

theorem shows_quote {a : String} {t : Token} (h : HasToken a.toList t)
    (ht : t = .name ∨ ∃ k, t = .keyword k) :
    Shows ("'" ++ a) (.quote a) := by
  refine ⟨[['\''], a.toList], by simp, .quoted (isWord_of_hasToken h ht) ⟨t, h⟩,
    fun position => ?_⟩
  have htoken := Lexer.tokenOf_of_hasToken h
  have hquotable : Quotable ⟨Lexer.tokenOf a.toList, position + Text.byteSize ['\''],
      String.ofList a.toList⟩ := by
    obtain rfl | ⟨k, rfl⟩ := ht
    · exact .name htoken
    · exact .keyword k htoken
  refine ⟨_, .tick rfl hquotable, ?_⟩
  rw [String.ofList_toList]
  rfl

/-! ## Numbers -/

/-- The decimal digits of a number spell it. -/
theorem decimal_toString (n : Nat) : decimal (toString n) = n := by
  have hdigits : ∀ cs : List Char,
      Nat.ofDigits 10 (cs.map fun c => c.toNat - '0'.toNat).reverse =
        Nat.ofDigitChars 10 cs 0 := by
    intro cs
    induction cs using List.reverseRecOn with
    | nil => rfl
    | append_singleton cs c ih =>
      rw [Nat.ofDigitChars_append, ← ih]
      simp [Nat.ofDigits_cons, Nat.ofDigitChars_cons, Nat.add_comm]
  rw [decimal, hdigits, Nat.toString_eq_repr, Nat.toList_repr, Nat.ofDigitChars_ten_toDigits]

theorem isDelimiter_of_isDigit {c : Char} (h : Lexer.isDigit c = true) :
    Lexer.isDelimiter c = false := by
  simp only [Lexer.isDigit, Bool.and_eq_true, decide_eq_true_eq] at h
  have hle : 48 ≤ c.toNat := h.1
  have hge : c.toNat ≤ 57 := h.2
  have hall : ∀ n ∈ List.range' 48 10, Lexer.isDelimiter (Char.ofNat n) = false := by decide
  rw [← Char.ofNat_toNat c]
  exact hall c.toNat (by simp; omega)

theorem hasToken_toString (n : Nat) :
    IsWord (toString n).toList ∧ HasToken (toString n).toList .number := by
  have hdigit : ∀ c ∈ (toString n).toList, Lexer.isDigit c = true := by
    intro c hc
    rw [Nat.toString_eq_repr, Nat.toList_repr] at hc
    have hc := Nat.isDigit_of_mem_toDigits (by decide) (by decide) hc
    simp only [Char.isDigit, Bool.and_eq_true, decide_eq_true_eq] at hc
    simp only [Lexer.isDigit, Bool.and_eq_true, decide_eq_true_eq]
    exact hc
  have hword : IsWord (toString n).toList := by
    refine ⟨?_, fun c hc => ?_⟩
    · rw [Nat.toString_eq_repr, Nat.toList_repr]
      exact Nat.toDigits_ne_nil
    · exact isDelimiter_of_isDigit (hdigit c hc)
  refine ⟨hword, .word hword (.number (fun k hk => ?_) hdigit)⟩
  rw [String.ofList_toList] at hk
  obtain ⟨c, hc, hfalse⟩ := not_isDigit_spelling hk
  cases (hdigit c hc).symm.trans hfalse

theorem shows_number {n : Nat} (h : n < 2 ^ 64) : Shows (toString n) (.numeral n) := by
  obtain ⟨hword, ht⟩ := hasToken_toString n
  refine displays_word hword ht fun x hx htext => ?_
  have hdecimal : decimal x.text = n := by rw [htext, decimal_toString]
  exact ⟨_, .number hx (by rwa [hdecimal]), by rw [hdecimal]; rfl⟩

/-! ## Forms in brackets -/

variable {text : String} {l m : List (List Char)} {t u : Core} {ts : List Core}

/-- Whatever may stand between the brackets of an expression, if it is written as a phrase with
others after it. -/
theorem shows_compound (hl : Phrase l) (hm : Trail m)
    (htext : text.toList = '(' :: (l.flatten ++ m.flatten ++ [')']))
    (h : ∀ s position, ∃ e, Compound s (lexemesFrom position (l ++ m)) e ∧ Expands e t) :
    Shows text t := by
  refine ⟨['('] :: (l ++ m ++ [[')']]), by simp [htext], .group hl hm, fun position => ?_⟩
  let closing := closingAt (position + 1 + Text.byteSize (l ++ m).flatten)
  obtain ⟨e, hcompound, he⟩ := h ⟨position, closing.stop⟩ (position + 1)
  have hexpression :
      Expression (openingAt position ::
        ([] ++ lexemesFrom (position + 1) (l ++ m) ++ [] ++ [closing])) e :=
    .compound rfl Blanks.nil hcompound Blanks.nil rfl
  rw [lexemesFrom_group]
  exact ⟨e, by simpa only [List.nil_append, List.append_nil] using hexpression, he⟩

/-- A keyword and its operands. -/
theorem shows_operator {k : Keyword} {head operands : String} (hk : head ∈ k.spellings)
    (hops : ShowsAll operands ts)
    (h : ∀ s x lexemes es, x.token = .keyword k → Series Expression lexemes es →
      List.Forall₂ Expands es ts →
      ∃ e, Compound s (x :: lexemes) e ∧ Expands e t) :
      Shows ("(" ++ head ++ operands ++ ")") t := by
  obtain ⟨m, hoperands, hm, hseries⟩ := hops
  have htoken := hasToken_spelling hk
  refine shows_compound (.word (isWord_spelling hk) ⟨_, htoken⟩) hm (by simp [hoperands])
    fun s position => ?_
  obtain ⟨es, hes, hexpands⟩ := hseries (position + Text.byteSize head.toList)
  exact h s _ _ es (Lexer.tokenOf_of_hasToken htoken) hes hexpands

/-- The texts with a space before each. -/
def spaced (texts : List String) : String := String.join (texts.map (" " ++ ·))

theorem bracketed_eq (head : String) (texts : List String) :
    Core.bracketed head texts = "(" ++ head ++ spaced texts ++ ")" := by
  have h : " ".intercalate (head :: texts) = head ++ spaced texts := by
    induction texts generalizing head with
    | nil => simp [spaced]
    | cons text texts ih => simp [spaced, String.intercalate_cons_cons, ih, String.append_assoc]
  rw [Core.bracketed, h, ← String.append_assoc]

theorem showsAll_spaced {texts : List String} (h : List.Forall₂ Shows texts ts) :
    ShowsAll (spaced texts) ts := by
  induction h with
  | nil => exact .nil
  | cons h _ ih => simpa [spaced] using DisplaysAll.cons h ih

theorem shows_bracketed {k : Keyword} {head : String} {texts : List String}
    (hk : head ∈ k.spellings) (hops : List.Forall₂ Shows texts ts)
    (h : ∀ s x lexemes es, x.token = .keyword k → Series Expression lexemes es →
      List.Forall₂ Expands es ts →
      ∃ e, Compound s (x :: lexemes) e ∧ Expands e t) :
      Shows (Core.bracketed head texts) t := by
  rw [bracketed_eq]
  exact shows_operator hk (showsAll_spaced hops) h

section Operators

variable {a b c d e : String} {t₁ t₂ t₃ t₄ t₅ : Core}

theorem shows_unary (o : Unary) (ha : Shows a t₁) :
    Shows (Core.bracketed o.spelling [a]) (.unary o t₁) := by
  have hk : o.spelling ∈ (Keyword.unary o).spellings := List.mem_singleton.2 rfl
  refine shows_bracketed hk (.cons ha .nil) fun s x lexemes es hx hseries hexpands => ?_
  obtain _ | ⟨h₁, _ | _⟩ := hexpands
  exact ⟨_, .unary hx hseries, by rw [Expands, Expr.expand, h₁]; rfl⟩

theorem shows_binary (o : Binary) (ha : Shows a t₁) (hb : Shows b t₂) :
    Shows (Core.bracketed o.spelling [a, b]) (o.expand t₁ t₂) := by
  have hk : o.spelling ∈ (Keyword.binary o).spellings := List.mem_singleton.2 rfl
  refine shows_bracketed hk (.cons ha (.cons hb .nil))
    fun s x lexemes es hx hseries hexpands => ?_
  obtain _ | ⟨h₁, _ | ⟨h₂, _ | _⟩⟩ := hexpands
  exact ⟨_, .binary hx hseries, by rw [Expands, Expr.expand, h₁, h₂]; rfl⟩

theorem shows_ternary {o : Ternary} (h : o.expand t₁ t₂ t₃ = some t) (ha : Shows a t₁)
    (hb : Shows b t₂) (hc : Shows c t₃) : Shows (Core.bracketed o.spelling [a, b, c]) t := by
  have hk : o.spelling ∈ (Keyword.ternary o).spellings := List.mem_singleton.2 rfl
  refine shows_bracketed hk (.cons ha (.cons hb (.cons hc .nil)))
    fun s x lexemes es hx hseries hexpands => ?_
  obtain _ | ⟨h₁, _ | ⟨h₂, _ | ⟨h₃, _ | _⟩⟩⟩ := hexpands
  exact ⟨_, .ternary hx hseries, by rw [Expands, Expr.expand, h₁, h₂, h₃]; exact h⟩

theorem shows_quaternary (o : Quaternary) (ha : Shows a t₁) (hb : Shows b t₂) (hc : Shows c t₃)
    (hd : Shows d t₄) :
    Shows (Core.bracketed o.spelling [a, b, c, d]) (o.expand t₁ t₂ t₃ t₄) := by
  have hk : o.spelling ∈ (Keyword.quaternary o).spellings := List.mem_singleton.2 rfl
  refine shows_bracketed hk (.cons ha (.cons hb (.cons hc (.cons hd .nil))))
    fun s x lexemes es hx hseries hexpands => ?_
  obtain _ | ⟨h₁, _ | ⟨h₂, _ | ⟨h₃, _ | ⟨h₄, _ | _⟩⟩⟩⟩ := hexpands
  exact ⟨_, .quaternary hx hseries, by rw [Expands, Expr.expand, h₁, h₂, h₃, h₄]; rfl⟩

theorem shows_indVec (ha : Shows a t₁) (hb : Shows b t₂) (hc : Shows c t₃) (hd : Shows d t₄)
    (he : Shows e t₅) :
    Shows (Core.bracketed "ind-Vec" [a, b, c, d, e]) (.indVec t₁ t₂ t₃ t₄ t₅) := by
  have hk : "ind-Vec" ∈ Keyword.indVec.spellings := List.mem_singleton.2 rfl
  refine shows_bracketed hk
    (.cons ha (.cons hb (.cons hc (.cons hd (.cons he .nil)))))
      fun s x lexemes es hx hseries hexpands => ?_
  obtain _ | ⟨h₁, _ | ⟨h₂, _ | ⟨h₃, _ | ⟨h₄, _ | ⟨h₅, _ | _⟩⟩⟩⟩⟩ := hexpands
  exact ⟨_, .indVec hx hseries, by rw [Expands, Expr.expand, h₁, h₂, h₃, h₄, h₅]; rfl⟩

/-- A simple eliminator with an annotated base. -/
theorem shows_annotated {o : Ternary} (h : o.expand t₁ (.the t₂ t₃) t₄ = some t)
    (ha : Shows a t₁) (hb : Shows b t₂) (hc : Shows c t₃) (hd : Shows d t₄) :
    Shows (Core.bracketed o.spelling [a, Core.bracketed "the" [b, c], d]) t :=
  shows_ternary h ha (shows_binary .the hb hc) hd

end Operators

/-! ## Groups -/

/-- An arrow between at least two types. -/
theorem shows_arrow {domain rest : String} (hdomain : Shows domain t) (hrest : ShowsAll rest ts)
    (hts : ts ≠ []) :
    Shows ("(-> " ++ domain ++ rest ++ ")") (arrows t ts) := by
  have htext : "(-> " ++ domain ++ rest ++ ")" = "(" ++ "->" ++
      (" " ++ domain ++ rest) ++ ")" := by
    apply String.toList_inj.1
    simp
  have hk : "->" ∈ Keyword.arrow.spellings := List.mem_cons_self
  rw [htext]
  refine shows_operator hk (.cons hdomain hrest) fun s x lexemes es hx hseries hexpands => ?_
  cases hexpands with
  | @cons e _ es _ he hes =>
    cases hseries with
    | cons hb h hs =>
      obtain ⟨b, ts', rfl, hb', hseparated⟩ :=
        hs.separated (by rintro rfl; cases hes; exact hts rfl)
      have hcompound := Compound.arrow hx hb h hb' hseparated (s := s)
      rw [List.append_assoc] at hcompound
      refine ⟨_, hcompound, ?_⟩
      rw [Expands, Expr.expand, he, expandList_eq_some hes]
      rfl

/-- A function with at least one argument. -/
theorem shows_apply {function arguments : String} (hfunction : Shows function t)
    (harguments : ShowsAll arguments ts) (hts : ts ≠ []) :
    Shows ("(" ++ function ++ arguments ++ ")") (ts.foldl .apply t) := by
  obtain ⟨l, hftext, hl, hfunction⟩ := hfunction
  obtain ⟨m, hatext, hm, harguments⟩ := harguments
  refine shows_compound hl hm (by simp [hftext, hatext]) fun s position => ?_
  obtain ⟨e, he, hexpands⟩ := hfunction position
  obtain ⟨es, hseries, hes⟩ := harguments (position + Text.byteSize l.flatten)
  obtain ⟨b, ts', hlexemes, hb, hseparated⟩ :=
    hseries.separated (by rintro rfl; cases hes; exact hts rfl)
  have hcompound := Compound.apply he hb hseparated (s := s)
  rw [List.append_assoc, ← hlexemes, ← Lexer.lexemesFrom_append] at hcompound
  refine ⟨_, hcompound, ?_⟩
  rw [Expands, Expr.expand, hexpands, expandList_eq_some hes]
  rfl

section Binders

variable {α β : Type} {Item : List Lexeme → α → Prop} {R : α → β → Prop}
  {first rest body : String} {b : β} {bs : List β}

/-- Items in brackets, with blanks between them. -/
inductive InBrackets (Item : List Lexeme → α → Prop) : List Lexeme → List α → Prop where
  | mk {l r : Lexeme} {ts : List Lexeme} {as : List α} (hl : l.token = .opening)
      (h : Separated Item ts as)
    (hr : r.token = .closing) : InBrackets Item (l :: (ts ++ [r])) as

theorem Grammar.Separated.of_series {ts ts' : List Lexeme} {a : α} {as : List α} (h : Item ts a)
    (hs : Series Item ts' as) : Separated Item (ts ++ ts') (a :: as) := by
  induction hs generalizing ts a with
  | nil => simpa using Separated.one h
  | cons hb ha _ ih =>
    have hmore := Separated.more h hb (ih ha)
    simpa only [List.append_assoc] using hmore

theorem displays_inBrackets (hfirst : Displays Item R first b)
    (hrest : DisplaysAll Item R rest bs) :
    Displays (InBrackets Item) (List.Forall₂ R) ("(" ++ first ++ rest ++ ")") (b :: bs) := by
  obtain ⟨l, hltext, hl, hfirst⟩ := hfirst
  obtain ⟨m, hmtext, hm, hrest⟩ := hrest
  refine ⟨['('] :: (l ++ m ++ [[')']]), by simp [hltext, hmtext], .group hl hm,
    fun position => ?_⟩
  obtain ⟨a, ha, hab⟩ := hfirst (position + 1)
  obtain ⟨as, has, habs⟩ := hrest (position + 1 + Text.byteSize l.flatten)
  refine ⟨a :: as, ?_, .cons hab habs⟩
  rw [lexemesFrom_group, Lexer.lexemesFrom_append]
  exact .mk rfl (.of_series ha has) rfl

theorem displays_binder {x ty : String} (hx : HasToken x.toList .name) (hty : Shows ty t) :
    Displays TypedBinder Binds ("(" ++ x ++ " " ++ ty ++ ")") (x, t) := by
  obtain ⟨lx, hxtext, hlx, hname⟩ := displays_name hx
  obtain ⟨l, htytext, hl, hty⟩ := hty
  refine ⟨['('] :: (lx ++ ([' '] :: (l ++ [])) ++ [[')']]), by simp [hxtext, htytext],
    .group hlx (.cons hl .nil), fun position => ?_⟩
  obtain ⟨site, hsite, hnamed⟩ := hname (position + 1)
  obtain ⟨e, he, hexpands⟩ := hty (position + 1 + Text.byteSize lx.flatten + 1)
  refine ⟨(site, e), ?_, hnamed, hexpands⟩
  rw [lexemesFrom_group, Lexer.lexemesFrom_append, lexemesFrom_space, List.append_nil]
  have hbinder := TypedBinder.mk (openingAt_token position) Blanks.nil hsite
    (blanks_spaceAt (position + 1 + Text.byteSize lx.flatten)) he Blanks.nil
    (closingAt_token (position + 1 + Text.byteSize (lx ++ [' '] :: l).flatten))
  simpa using hbinder

/-- A keyword, binders in brackets, and what they bind in. -/
theorem shows_binding {k : Keyword} {head binders : String} (hk : head ∈ k.spellings)
    (hbinders : Displays (InBrackets Item) (List.Forall₂ R) binders bs) (hbody : Shows body u)
    (h : ∀ s x b l ts r b' ts' as e, x.token = .keyword k → Blanks b → l.token = .opening →
      Separated Item ts as → r.token = .closing → Blanks b' → Expression ts' e →
      List.Forall₂ R as bs → Expands e u →
      ∃ e', Compound s (x :: (b ++ l :: (ts ++ r :: (b' ++ ts')))) e' ∧ Expands e' t) :
    Shows ("(" ++ head ++ " " ++ binders ++ " " ++ body ++ ")") t := by
  obtain ⟨l, hltext, hl, hbinders⟩ := hbinders
  obtain ⟨m, hmtext, hm, hbody⟩ := hbody
  have htoken := hasToken_spelling hk
  refine shows_compound (.word (isWord_spelling hk) ⟨_, htoken⟩) (.cons hl (.cons hm .nil))
    (by simp [hltext, hmtext]) fun s position => ?_
  obtain ⟨as, has, hR⟩ := hbinders (position + Text.byteSize head.toList + 1)
  obtain ⟨e, he, hexpands⟩ := hbody
    (position + Text.byteSize head.toList + 1 + Text.byteSize l.flatten + 1)
  rw [List.singleton_append, lexemesFrom, lexemesFrom_space, Lexer.lexemesFrom_append,
    lexemesFrom_space, List.append_nil]
  generalize lexemesFrom (position + Text.byteSize head.toList + 1) l = lexemes at has
  cases has with
  | mk hopening hseparated hclosing =>
    obtain ⟨e', hcompound, hexpands⟩ :=
      h s ⟨Lexer.tokenOf head.toList, position, String.ofList head.toList⟩
        [spaceAt (position + Text.byteSize head.toList)] _ _ _
      [spaceAt (position + Text.byteSize head.toList + 1 + Text.byteSize l.flatten)] _ as e
      (Lexer.tokenOf_of_hasToken htoken) (blanks_spaceAt _) hopening hseparated hclosing
        (blanks_spaceAt _) he hR
      hexpands
    exact ⟨e', by simpa using hcompound, hexpands⟩

/-- A function with at least one parameter. -/
theorem shows_lambda {x parameters : String} {xs : List String} (hx : HasToken x.toList .name)
    (hparameters : DisplaysAll BindingSite Named parameters xs) (hbody : Shows body u) :
    Shows ("(λ (" ++ x ++ parameters ++ ") " ++ body ++ ")") (.lam x (xs.foldr .lam u)) := by
  have htext : "(λ (" ++ x ++ parameters ++ ") " ++ body ++ ")" =
      "(" ++ "λ" ++ " " ++ ("(" ++ x ++ parameters ++ ")") ++ " " ++ body ++ ")" := by
    apply String.toList_inj.1
    simp
  have hk : "λ" ∈ Keyword.lambda.spellings := by decide
  rw [htext]
  refine shows_binding hk (displays_inBrackets (displays_name hx) hparameters) hbody ?_
  intro s k b l ts r b' ts' sites e hk hb hl hs hr hb' he hsites hexpands
  have hcompound := Compound.lambda hk hb hl Blanks.nil hs Blanks.nil hr hb' he (s := s)
  refine ⟨_, by simpa using hcompound, ?_⟩
  rw [Expands, Expr.expand, hexpands]
  exact congrArg some (foldr_lam_eq hsites u)

/-- A dependent type with at least one binder. -/
theorem shows_quant (q : Quantifier) {x ty binders : String} {bs : List (String × Core)}
    (hx : HasToken x.toList .name) (hty : Shows ty t)
    (hbinders : DisplaysAll TypedBinder Binds binders bs) (hbody : Shows body u) :
    Shows ("(" ++ Core.quantifierSymbol q ++ " ((" ++ x ++ " " ++ ty ++ ")" ++ binders ++
      ") " ++ body ++ ")") (.quant q x t
        (bs.foldr (fun b family => .quant q b.1 b.2 family) u)) := by
  have htext : "(" ++ Core.quantifierSymbol q ++ " ((" ++ x ++ " " ++ ty ++ ")" ++ binders ++
      ") " ++ body ++ ")" = "(" ++ Core.quantifierSymbol q ++ " " ++
        ("(" ++ ("(" ++ x ++ " " ++ ty ++ ")") ++ binders ++ ")") ++ " " ++
        body ++ ")" := by
    apply String.toList_inj.1
    simp
  have hk : Core.quantifierSymbol q ∈ (Keyword.quant q).spellings := by cases q <;> decide
  rw [htext]
  refine shows_binding hk (displays_inBrackets (displays_binder hx hty) hbinders) hbody ?_
  intro s k b l ts r b' ts' typed e hk hb hl hs hr hb' he htyped hexpands
  have hcompound := Compound.quant hk hb hl Blanks.nil hs Blanks.nil hr hb' he (s := s)
  refine ⟨_, by simpa using hcompound, ?_⟩
  rw [Expands, Expr.expand, hexpands, expandBinders_eq_some htyped]
  rfl

end Binders

end PieChecker.Surface
