import PieChecker.Proofs.Parsing.Programs
import PieChecker.Proofs.Printing.Expansion

set_option autoImplicit false

/-!
# Reading what was printed

A printed term is read as an expression whose expansion is the term again, apart from what the
notation leaves out. The places of the printer follow the groups of the notation: a term that is
printed after a parameter, a binder or a domain, or as a function, either continues the group
that is open there or ends it, and `ShownAt` says what the group is then.
-/

namespace PieChecker.Core

open Surface (Shows ShowsAll DisplaysAll Named Binds arrows)
open Surface.Grammar (BindingSite TypedBinder)

/-- The text is a single name. -/
def IsName (x : String) : Prop := ∃ l, lex x = .ok [l] ∧ l.token = .name

/-- The text is a single name or keyword. -/
def IsQuotable (a : String) :
    Prop := ∃ l, lex a = .ok [l] ∧ (l.token = .name ∨ ∃ k, l.token = .keyword k)

/-- What is printed of the term can be written in a program: names are names, and numbers fit 64
bits. -/
def Legible : Core → Prop
  | var x => IsName x
  | const _ | todo _ _ => True
  | quote a => IsQuotable a
  | quant _ x base family =>
    (family.mentions x = true → IsName x) ∧ base.Legible ∧ family.Legible
  | lam x body => IsName x ∧ body.Legible
  | unary o a => (∀ n, (unary o a).asNumeral? = some n → n < 2 ^ 64) ∧ a.Legible
  | binary _ a b => a.Legible ∧ b.Legible
  | ternary .cong a _ c => a.Legible ∧ c.Legible
  | ternary _ a b c => a.Legible ∧ b.Legible ∧ c.Legible
  | quaternary _ a b c d => a.Legible ∧ b.Legible ∧ c.Legible ∧ d.Legible
  | indVec l t m b s => l.Legible ∧ t.Legible ∧ m.Legible ∧ b.Legible ∧ s.Legible

/-- The terms differ at most in what the notation leaves out: where an unfinished part was
written and its type, the type of the results of `cong`, and the names of binders of dependent
types that nothing in the family refers to. -/
inductive Alike : Core → Core → Prop where
  | var (x : String) : Alike (var x) (var x)
  | const (c : Const) : Alike (const c) (const c)
  | quote (a : String) : Alike (quote a) (quote a)
  | todo (span span' : Span) (ty ty' : Core) : Alike (todo span ty) (todo span' ty')
  | quant (q : Quantifier) (x : String) {base base' family family' : Core}
      (hbase : Alike base base')
    (hfamily : Alike family family') : Alike (quant q x base family) (quant q x base' family')
  | unused (q : Quantifier) {x y : String} {base base' family family' : Core}
      (hx : family.mentions x = false)
    (hy : family'.mentions y = false) (hbase : Alike base base')
    (hfamily : Alike family family') :
    Alike (quant q x base family) (quant q y base' family')
  | lam (x : String) {body body' : Core} (h : Alike body body') :
      Alike (lam x body) (lam x body')
  | unary (o : Unary) {a a' : Core} (ha : Alike a a') : Alike (unary o a) (unary o a')
  | binary (o : Binary) {a a' b b' : Core} (ha : Alike a a') (hb : Alike b b') :
      Alike (binary o a b) (binary o a' b')
  | cong {a a' c c' : Core} (b b' : Core) (ha : Alike a a') (hc : Alike c c') :
    Alike (ternary .cong a b c) (ternary .cong a' b' c')
  | ternary (o : Ternary) {a a' b b' c c' : Core} (ha : Alike a a') (hb : Alike b b')
      (hc : Alike c c') :
    Alike (ternary o a b c) (ternary o a' b' c')
  | quaternary (o : Quaternary) {a a' b b' c c' d d' : Core} (ha : Alike a a') (hb : Alike b b')
      (hc : Alike c c')
    (hd : Alike d d') : Alike (quaternary o a b c d) (quaternary o a' b' c' d')
  | indVec {l l' t t' m m' b b' s s' : Core} (hl : Alike l l') (ht : Alike t t')
      (hm : Alike m m') (hb : Alike b b')
    (hs : Alike s s') : Alike (indVec l t m b s) (indVec l' t' m' b' s')

/-! ## The visible part of a term -/

/-- The term with the same fillers as an expansion in the places of what is not printed. -/
def visible : Core → Core
  | var x => var x
  | const c => const c
  | quote a => quote a
  | todo _ _ => todo ⟨0, 0⟩ univ
  | quant q x base family =>
    quant q (if family.mentions x then x else "") base.visible family.visible
  | lam x body => lam x body.visible
  | unary o a => unary o a.visible
  | binary o a b => binary o a.visible b.visible
  | ternary .cong a _ c => ternary .cong a.visible univ c.visible
  | ternary o a b c => ternary o a.visible b.visible c.visible
  | quaternary o a b c d => quaternary o a.visible b.visible c.visible d.visible
  | indVec l t m b s => indVec l.visible t.visible m.visible b.visible s.visible

theorem eq_numeral_of_asNumeral? {t : Core} {n : Nat} (h : t.asNumeral? = some n) :
    t = numeral n := by
  fun_induction asNumeral? t generalizing n with
  | case1 =>
    cases h
    rfl
  | case2 t ih =>
    obtain ⟨m, hm, rfl⟩ := Option.map_eq_some_iff.1 h
    rw [ih hm]
    rfl
  | case3 => cases h

theorem visible_numeral (n : Nat) : (numeral n).visible = numeral n := by
  induction n with
  | zero => rfl
  | succ n ih => rw [numeral, visible, ih]

theorem IsName.hasToken {x : String} (h : IsName x) : Lexer.HasToken x.toList .name := by
  obtain ⟨l, hlex, hl⟩ := h
  rw [← hl]
  exact Lexer.hasToken_of_lex hlex

theorem IsName.ne_empty {x : String} (h : IsName x) : x ≠ "" := by
  rintro rfl
  cases h.hasToken with
  | word h _ => exact h.1 rfl

/-- The empty name does not occur in what is printed, so a binder with that name binds
nothing. -/
theorem mentions_empty_visible {t : Core} (h : t.Legible) : t.visible.mentions "" = false := by
  induction t with
  | var x =>
    have hx := IsName.ne_empty h
    simp [visible, mentions, hx]
  | const | quote | todo => rfl
  | quant q x base family ihbase ihfamily =>
    simp [visible, mentions, ihbase h.2.1, ihfamily h.2.2]
  | lam x body ih => simp [visible, mentions, ih h.2]
  | unary o a ih => simp [visible, mentions, ih h.2]
  | binary o a b iha ihb => simp [visible, mentions, iha h.1, ihb h.2]
  | ternary o a b c iha ihb ihc =>
    cases o with
    | cong => simp [visible, mentions, iha h.1, ihc h.2]
    | equal | replace | indEq => simp [visible, mentions, iha h.1, ihb h.2.1, ihc h.2.2]
  | quaternary o a b c d iha ihb ihc ihd =>
    simp [visible, mentions, iha h.1, ihb h.2.1, ihc h.2.2.1, ihd h.2.2.2]
  | indVec l t m b s ihl iht ihm ihb ihs =>
    simp [visible, mentions, ihl h.1, iht h.2.1, ihm h.2.2.1, ihb h.2.2.2.1, ihs h.2.2.2.2]

theorem alike_visible {t : Core} (h : t.Legible) : t.Alike t.visible := by
  induction t with
  | var x => exact .var x
  | const c => exact .const c
  | quote a => exact .quote a
  | todo span ty => exact .todo ..
  | quant q x base family ihbase ihfamily =>
    rw [visible]
    split
    case isTrue => exact .quant q x (ihbase h.2.1) (ihfamily h.2.2)
    case isFalse hx =>
      exact .unused q (by simpa using hx) (mentions_empty_visible h.2.2) (ihbase h.2.1)
        (ihfamily h.2.2)
  | lam x body ih => exact .lam x (ih h.2)
  | unary o a ih => exact .unary o (ih h.2)
  | binary o a b iha ihb => exact .binary o (iha h.1) (ihb h.2)
  | ternary o a b c iha ihb ihc =>
    cases o with
    | cong => exact .cong _ _ (iha h.1) (ihc h.2)
    | equal | replace | indEq => exact .ternary _ (iha h.1) (ihb h.2.1) (ihc h.2.2)
  | quaternary o a b c d iha ihb ihc ihd =>
    exact .quaternary o (iha h.1) (ihb h.2.1) (ihc h.2.2.1) (ihd h.2.2.2)
  | indVec l t m b s ihl iht ihm ihb ihs =>
    exact .indVec (ihl h.1) (iht h.2.1) (ihm h.2.2.1) (ihb h.2.2.2.1) (ihs h.2.2.2.2)

/-! ## Open groups -/

/-- What a text at a place is: an expression for the term, or the rest of the group that is open
there, such that the term is all that this rest adds to the group. -/
def ShownAt : Place → String → Core → Prop
  | .alone, text, t => Shows text t
  | .afterParameter, text, t =>
    ∃ parameters xs body u, text = parameters ++ ") " ++ body ++ ")" ∧
    DisplaysAll BindingSite Named parameters xs ∧ Shows body u ∧ t = xs.foldr lam u
  | .afterBinder q, text, t => ∃ binders bs body u, text = binders ++ ") " ++ body ++ ")" ∧
    DisplaysAll TypedBinder Binds binders bs ∧ Shows body u ∧
    t = bs.foldr (fun b family => quant q b.1 b.2 family) u
  | .afterDomain, text, t => ∃ first rest u us, text = first ++ rest ++ ")" ∧
    Shows first u ∧ ShowsAll rest us ∧ t = arrows u us
  | .function, text, t => ∃ function arguments u us, text = function ++ arguments ∧
    Shows function u ∧ ShowsAll arguments us ∧ t = us.foldl apply u

variable {place : Place} {text : String} {t u : Core}

/-- A term that does not continue the open group ends it. -/
theorem ShownAt.finish (h : Shows text t) (place : Place) :
    ShownAt place (place.finish text) t := by
  cases place with
  | alone => exact h
  | afterParameter => exact ⟨"", [], text, t, by simp [Place.finish], .nil, h, rfl⟩
  | afterBinder q => exact ⟨"", [], text, t, by simp [Place.finish], .nil, h, rfl⟩
  | afterDomain => exact ⟨text, "", t, [], by simp [Place.finish], h, .nil, rfl⟩
  | function => exact ⟨text, "", t, [], by simp [Place.finish], h, .nil, rfl⟩

theorem ShownAt.lam {x : String} (hx : IsName x) (h : ShownAt .afterParameter text t)
    (place : Place) :
    ShownAt place (if place = .afterParameter then " " ++
      (x ++ text) else place.finish ("(λ (" ++ (x ++ text))) (lam x t) := by
  obtain ⟨parameters, xs, body, u, rfl, hparameters, hbody, rfl⟩ := h
  split
  case isTrue hplace =>
    subst hplace
    refine ⟨" " ++ x ++ parameters, x :: xs, body, u, ?_,
      .cons (Surface.displays_name hx.hasToken) hparameters, hbody, rfl⟩
    simp [String.append_assoc]
  case isFalse =>
    have hshows := Surface.shows_lambda hx.hasToken hparameters hbody
    simp only [String.append_assoc] at hshows ⊢
    exact .finish hshows place

theorem ShownAt.quant {q : Quantifier} {x base : String} (hx : IsName x) (hbase : Shows base t)
    (h : ShownAt (.afterBinder q) text u) (place : Place) :
    ShownAt place (if place = .afterBinder q then " " ++
      ("(" ++ x ++ " " ++ base ++ ")" ++ text) else place.finish
      ("(" ++ quantifierSymbol q ++ " (" ++ ("(" ++ x ++ " " ++ base ++ ")" ++ text)))
        (quant q x t u) := by
  obtain ⟨binders, bs, body, u, rfl, hbinders, hbody, rfl⟩ := h
  split
  case isTrue hplace =>
    subst hplace
    refine ⟨" " ++ ("(" ++ x ++ " " ++ base ++ ")") ++ binders, (x, t) :: bs, body, u, ?_,
      .cons (Surface.displays_binder hx.hasToken hbase) hbinders, hbody, rfl⟩
    simp [String.append_assoc]
  case isFalse =>
    have hshows := Surface.shows_quant q hx.hasToken hbase hbinders hbody
    have htext : "(" ++ quantifierSymbol q ++ " (" ++
        ("(" ++ x ++ " " ++ base ++ ")" ++ (binders ++ ") " ++ body ++ ")")) =
        "(" ++ quantifierSymbol q ++ " ((" ++ x ++ " " ++ base ++ ")" ++ binders ++ ") " ++
          body ++ ")" := by
      apply String.toList_inj.1
      simp
    rw [htext]
    exact .finish hshows place

theorem ShownAt.arrow {base : String} (hbase : Shows base t) (h : ShownAt .afterDomain text u)
    (place : Place) :
    ShownAt place (if place = .afterDomain then base ++ " " ++
      text else place.finish ("(-> " ++ (base ++ " " ++ text))) (pi "" t u) := by
  obtain ⟨first, rest, u, us, rfl, hfirst, hrest, rfl⟩ := h
  have hus : ShowsAll (" " ++ first ++ rest) (u :: us) := .cons hfirst hrest
  split
  case isTrue hplace =>
    subst hplace
    exact ⟨base, _, t, _, by simp [String.append_assoc], hbase, hus, rfl⟩
  case isFalse =>
    have hshows := Surface.shows_arrow hbase hus (List.cons_ne_nil _ _)
    simp only [String.append_assoc] at hshows ⊢
    exact .finish hshows place

theorem ShownAt.apply {argument : String} (h : ShownAt .function text t)
    (hargument : Shows argument u) (place : Place) :
    ShownAt place (if place = .function then text ++ " " ++ argument
      else place.finish ("(" ++ (text ++ " " ++ argument) ++ ")")) (apply t u) := by
  obtain ⟨function, arguments, t, ts, rfl, hfunction, harguments, rfl⟩ := h
  have hone : ShowsAll (" " ++ argument) [u] := by simpa using DisplaysAll.cons hargument .nil
  have hall := harguments.append hone
  have happly : (ts ++ [u]).foldl Core.apply t = Core.apply (ts.foldl Core.apply t) u := by simp
  split
  case isTrue hplace =>
    subst hplace
    exact ⟨function, _, t, _, by simp [String.append_assoc], hfunction, hall, happly.symm⟩
  case isFalse =>
    have hshows := Surface.shows_apply hfunction hall (by simp)
    rw [happly] at hshows
    simp only [String.append_assoc] at hshows ⊢
    exact .finish hshows place

/-! ## The printer -/

/-- By induction on the term, for all places at once: a part of a term that continues a group is
printed at the place that the group leaves open, and every other part alone. -/
theorem shownAt_printAt {t : Core} (h : t.Legible) (place : Place) :
    ShownAt place (t.printAt place) t.visible := by
  induction t generalizing place with
  | var x => exact .finish (Surface.shows_var (IsName.hasToken h)) place
  | const c =>
    cases c with
    | zero => exact .finish (Surface.shows_number (n := 0) (by decide)) place
    | univ | nat | atom | trivial | sole | nil | absurd | vecnil =>
      exact .finish (Surface.shows_const _) place
  | quote a =>
    obtain ⟨l, hlex, hl⟩ := h
    exact .finish (Surface.shows_quote (Lexer.hasToken_of_lex hlex) hl) place
  | todo span ty => exact .finish Surface.shows_todo place
  | quant q x base family ihbase ihfamily =>
    have hbase := ihbase h.2.1 .alone
    unfold printAt visible
    by_cases hx : family.mentions x = true
    · rw [if_pos hx, if_pos hx]
      exact .quant (h.1 hx) hbase (ihfamily h.2.2 (.afterBinder q)) place
    · rw [if_neg hx, if_neg hx]
      cases q with
      | pi => exact .arrow hbase (ihfamily h.2.2 .afterDomain) place
      | sigma => exact .finish (Surface.shows_binary .pair hbase (ihfamily h.2.2 .alone)) place
  | lam x body ih => exact .lam h.1 (ih h.2 .afterParameter) place
  | unary o a ih =>
    rw [printAt]
    refine .finish ?_ place
    split
    case h_1 n hn =>
      rw [eq_numeral_of_asNumeral? hn, visible_numeral]
      exact Surface.shows_number (h.1 n hn)
    case h_2 => exact Surface.shows_unary o (ih h.2 .alone)
  | binary o a b iha ihb =>
    have hb := ihb h.2 .alone
    cases o with
    | apply => exact .apply (iha h.1 .function) hb place
    | the => exact .finish (Surface.shows_binary .the (iha h.1 .alone) hb) place
    | cons => exact .finish (Surface.shows_binary .cons (iha h.1 .alone) hb) place
    | listCons => exact .finish (Surface.shows_binary .listCons (iha h.1 .alone) hb) place
    | indAbsurd => exact .finish (Surface.shows_binary .indAbsurd (iha h.1 .alone) hb) place
    | trans => exact .finish (Surface.shows_binary .trans (iha h.1 .alone) hb) place
    | vec => exact .finish (Surface.shows_binary .vec (iha h.1 .alone) hb) place
    | vecCons => exact .finish (Surface.shows_binary .vecCons (iha h.1 .alone) hb) place
    | either => exact .finish (Surface.shows_binary .either (iha h.1 .alone) hb) place
  | ternary o a b c iha ihb ihc =>
    have ha := fun h => iha h .alone
    have hb := fun h => ihb h .alone
    have hc := fun h => ihc h .alone
    cases o with
    | cong => exact .finish (Surface.shows_binary .cong (ha h.1) (hc h.2)) place
    | equal =>
      exact .finish (Surface.shows_ternary (o := .equal) rfl (ha h.1) (hb h.2.1) (hc h.2.2))
        place
    | replace =>
      exact .finish (Surface.shows_ternary (o := .replace) rfl (ha h.1) (hb h.2.1) (hc h.2.2))
        place
    | indEq =>
      exact .finish (Surface.shows_ternary (o := .indEq) rfl (ha h.1) (hb h.2.1) (hc h.2.2))
        place
  | quaternary o a b c d iha ihb ihc ihd =>
    have ha := iha h.1 .alone
    have hb := ihb h.2.1 .alone
    have hc := ihc h.2.2.1 .alone
    have hd := ihd h.2.2.2 .alone
    cases o with
    | whichNat => exact .finish (Surface.shows_annotated (o := .whichNat) rfl ha hb hc hd) place
    | iterNat => exact .finish (Surface.shows_annotated (o := .iterNat) rfl ha hb hc hd) place
    | recNat => exact .finish (Surface.shows_annotated (o := .recNat) rfl ha hb hc hd) place
    | recList => exact .finish (Surface.shows_annotated (o := .recList) rfl ha hb hc hd) place
    | indNat => exact .finish (Surface.shows_quaternary .indNat ha hb hc hd) place
    | indList => exact .finish (Surface.shows_quaternary .indList ha hb hc hd) place
    | indEither => exact .finish (Surface.shows_quaternary .indEither ha hb hc hd) place
  | indVec l t m b s ihl iht ihm ihb ihs =>
    exact .finish (Surface.shows_indVec (ihl h.1 .alone) (iht h.2.1 .alone) (ihm h.2.2.1 .alone)
      (ihb h.2.2.2.1 .alone) (ihs h.2.2.2.2 .alone)) place

end PieChecker.Core

namespace PieChecker.Surface

open Grammar

/-- A text that shows a term is read as an expression that expands to the term. -/
theorem Shows.parseExpression {text : String} {t : Core} (h : Shows text t) :
    ∃ e, parseExpression text = .ok e ∧ e.expand = some t := by
  obtain ⟨l, htext, hl, h⟩ := h
  obtain ⟨e, he, hexpands⟩ := h 0
  have hlone : LoneExpression (Lexer.lexemesFrom 0 l) e := by
    simpa using LoneExpression.mk Blanks.nil he Blanks.nil
  have hparse := (parseLexemesAsExpression_eq_ok_iff text.utf8ByteSize _ e).2 hlone
  refine ⟨e, ?_, hexpands⟩
  rw [Surface.parseExpression, hl.lex htext]
  simp [Except.mapError, bind, Except.bind, hparse]

end PieChecker.Surface

namespace PieChecker.Core

/-- A printed term can be read, and the expansion of what is read differs from the term at most
in what the notation leaves out. -/
theorem parseExpression_print (t : Core) (h : t.Legible) :
    ∃ e u, Surface.parseExpression t.print = .ok e ∧ e.expand = some u ∧ t.Alike u := by
  obtain ⟨e, hparse, hexpand⟩ := Surface.Shows.parseExpression (shownAt_printAt h .alone)
  exact ⟨e, t.visible, hparse, hexpand, alike_visible h⟩

/-- A term with groups of every kind, and with everything that its notation leaves out. -/
def groupedTerm : Core :=
  the (pi "A" univ (pi "unused" (var "A") (var "A")))
    (lam "A"
      (lam "x" (apply (apply (todo ⟨3, 7⟩ (var "x")) (numeral 3))
        (ternary .cong (var "p") nat (var "f")))))

theorem groupedTerm_legible : groupedTerm.Legible := by
  have hA : IsName "A" := ⟨⟨.name, 0, "A"⟩, by decide +kernel, rfl⟩
  have hx : IsName "x" := ⟨⟨.name, 0, "x"⟩, by decide +kernel, rfl⟩
  have hp : IsName "p" := ⟨⟨.name, 0, "p"⟩, by decide +kernel, rfl⟩
  have hf : IsName "f" := ⟨⟨.name, 0, "f"⟩, by decide +kernel, rfl⟩
  have hthree : (numeral 3).Legible := by
    refine ⟨?_, ?_, ?_, trivial⟩ <;> rintro n ⟨⟩ <;> decide
  exact ⟨⟨fun _ => hA, trivial, nofun, hA, hA⟩, hA, hx, ⟨trivial, hthree⟩, hp, hf⟩

theorem parseExpression_print_groupedTerm :
    groupedTerm.print = "(the (Π ((A U)) (-> A A)) (λ (A x) (TODO 3 (cong p f))))" ∧
      groupedTerm.Legible ∧
      ∃ e u, Surface.parseExpression groupedTerm.print = .ok e ∧ e.expand = some u ∧
      groupedTerm.Alike u :=
  ⟨by decide +kernel, groupedTerm_legible,
    parseExpression_print groupedTerm groupedTerm_legible⟩

end PieChecker.Core
