import Mathlib.Data.List.Forall2
import PieChecker.Proofs.Places
import PieChecker.Proofs.Simulation.Likeness

set_option autoImplicit false

/-!
# Renaming the binders of surface expressions

Two surface expressions are renamings of each other if they differ only in the names of the
binders that the program writes and in the references to these binders. A reference means the
innermost binder of its name, so below a pair of binders their two names stand for each other
and for nothing else: a renaming captures no reference.

The relation also says which spans stand for each other and which names binders may have instead
of others, so that it covers expressions that were read from different places.
-/

namespace PieChecker.Surface

namespace Expr

variable (span : Span → Span → Prop) (binder : String → String → Prop)

mutual

/-- Two expressions are equal up to the names of binders, and their free references
correspond. -/
inductive Renamed : NameRelation → Expr → Expr → Prop where
  | const {τ : NameRelation} {s s' : Span} (hs : span s s') (c : Const) :
      Renamed τ (.const s c) (.const s' c)
  | todo {τ : NameRelation} {s s' : Span} (hs : span s s') : Renamed τ (.todo s) (.todo s')
  | var {τ : NameRelation} {s s' : Span} (hs : span s s') {x y : String} (h : τ x y) :
    Renamed τ (.var s x) (.var s' y)
  | number {τ : NameRelation} {s s' : Span} (hs : span s s') (n : Nat) :
      Renamed τ (.number s n) (.number s' n)
  | quote {τ : NameRelation} {s s' : Span} (hs : span s s') (a : String) :
      Renamed τ (.quote s a) (.quote s' a)
  | unary {τ : NameRelation} {s s' : Span} (hs : span s s') (o : Unary) {a a' : Expr}
      (ha : Renamed τ a a') :
    Renamed τ (.unary s o a) (.unary s' o a')
  | binary {τ : NameRelation} {s s' : Span} (hs : span s s') (o : Binary) {a a' b b' : Expr}
      (ha : Renamed τ a a')
    (hb : Renamed τ b b') : Renamed τ (.binary s o a b) (.binary s' o a' b')
  | ternary {τ : NameRelation} {s s' : Span} (hs : span s s') (o : Ternary)
      {a a' b b' c c' : Expr}
    (ha : Renamed τ a a') (hb : Renamed τ b b') (hc : Renamed τ c c') :
    Renamed τ (.ternary s o a b c) (.ternary s' o a' b' c')
  | quaternary {τ : NameRelation} {s s' : Span} (hs : span s s') (o : Quaternary)
      {a a' b b' c c' d d' : Expr}
    (ha : Renamed τ a a') (hb : Renamed τ b b') (hc : Renamed τ c c') (hd : Renamed τ d d') :
    Renamed τ (.quaternary s o a b c d) (.quaternary s' o a' b' c' d')
  | indVec {τ : NameRelation} {s s' : Span} (hs : span s s') {l l' t t' m m' b b' p p' : Expr}
    (hl : Renamed τ l l') (ht : Renamed τ t t') (hm : Renamed τ m m') (hb : Renamed τ b b')
    (hp : Renamed τ p p') :
    Renamed τ (.indVec s l t m b p) (.indVec s' l' t' m' b' p')
  | arrow {τ : NameRelation} {s s' : Span} (hs : span s s') {a a' : Expr}
      {rest rest' : List Expr}
    (ha : Renamed τ a a') (hr : RenamedList τ rest rest') :
    Renamed τ (.arrow s a rest) (.arrow s' a' rest')
  | quant {τ : NameRelation} {s s' : Span} (hs : span s s') (q : Quantifier)
      {binders binders' : List (Site × Expr)}
    {body body' : Expr} (h : RenamedTelescope τ binders body binders' body') :
    Renamed τ (.quant s q binders body) (.quant s' q binders' body')
  | lambda {τ : NameRelation} {s s' : Span} (hs : span s s') {sites sites' : List Site}
      {body body' : Expr}
    (h : RenamedLambda τ sites body sites' body') :
    Renamed τ (.lambda s sites body) (.lambda s' sites' body')
  | apply {τ : NameRelation} {s s' : Span} (hs : span s s') {f f' : Expr} {as as' : List Expr}
    (hf : Renamed τ f f') (ha : RenamedList τ as as') :
    Renamed τ (.apply s f as) (.apply s' f' as')

/-- Two lists of expressions are renamed one by one. -/
inductive RenamedList : NameRelation → List Expr → List Expr → Prop where
  | nil {τ : NameRelation} : RenamedList τ [] []
  | cons {τ : NameRelation} {e e' : Expr} {es es' : List Expr} (h : Renamed τ e e')
      (hs : RenamedList τ es es') :
    RenamedList τ (e :: es) (e' :: es')

/-- Two expressions are renamed below two lists of typed binders, each in the scope of the ones
before it. -/
inductive RenamedTelescope : NameRelation → List (Site × Expr) → Expr → List (Site × Expr) →
    Expr → Prop where
  | nil {τ : NameRelation} {body body' : Expr} (h : Renamed τ body body') :
      RenamedTelescope τ [] body [] body'
  | cons {τ : NameRelation} {x x' : Site} {ty ty' : Expr}
    {binders binders' : List (Site × Expr)} {body body' : Expr}
    (hs : span x.span x'.span) (hx : binder x.name x'.name) (hty : Renamed τ ty ty')
    (h : RenamedTelescope (τ.push x.name x'.name) binders body binders' body') :
    RenamedTelescope τ ((x, ty) :: binders) body ((x', ty') :: binders') body'

/-- Two expressions are renamed below two lists of parameters. -/
inductive RenamedLambda : NameRelation → List Site → Expr → List Site → Expr → Prop where
  | nil {τ : NameRelation} {body body' : Expr} (h : Renamed τ body body') :
      RenamedLambda τ [] body [] body'
  | cons {τ : NameRelation} {x x' : Site} {sites sites' : List Site} {body body' : Expr}
      (hs : span x.span x'.span)
    (hx : binder x.name x'.name)
    (h : RenamedLambda (τ.push x.name x'.name) sites body sites' body') :
    RenamedLambda τ (x :: sites) body (x' :: sites') body'

end

variable {span binder}

/-- The spans of renamed expressions stand for each other. -/
theorem Renamed.spans {τ : NameRelation} {e e' : Expr} (h : Renamed span binder τ e e') :
    span e.span e'.span := by
  cases h <;> assumption

end Expr

/-- Below two binders of one name, names that correspond to themselves still do so. -/
theorem push_refl {τ : NameRelation} (hτ : ∀ a, τ a a) (x : String) : ∀ a, τ.push x x a a := by
  intro a
  by_cases ha : a = x
  · exact Or.inl ⟨ha, ha⟩
  · exact Or.inr ⟨ha, ha, hτ a⟩

/-- Below a pair of binders that may stand for each other, so may all names that correspond. -/
theorem push_binder {binder : String → String → Prop} {τ : NameRelation}
    (hτ : ∀ a b, τ a b → binder a b) {x y : String} (hxy : binder x y) : ∀ a b, τ.push x y a b →
    binder a b := by
  rintro a b (⟨rfl, rfl⟩ | ⟨_, _, hab⟩)
  · exact hxy
  · exact hτ a b hab

namespace Expr

variable {span : Span → Span → Prop} {binder : String → String → Prop}

mutual

/-- The names that occur in renamed expressions stand for each other, one by one. -/
theorem Renamed.names : ∀ {τ : NameRelation} {e e' : Expr}, Renamed span binder τ e e' →
    (∀ a b, τ a b → binder a b) → List.Forall₂ binder e.names e'.names
  | _, _, _, .const .., _ | _, _, _, .todo .., _ | _, _, _, .number .., _
  | _, _, _, .quote .., _ => .nil
  | _, _, _, .var _ h, hτ => .cons (hτ _ _ h) .nil
  | _, _, _, .unary _ _ ha, hτ => ha.names hτ
  | _, _, _, .binary _ _ ha hb, hτ => List.rel_append (ha.names hτ) (hb.names hτ)
  | _, _, _, .ternary _ _ ha hb hc, hτ =>
    List.rel_append (List.rel_append (ha.names hτ) (hb.names hτ)) (hc.names hτ)
  | _, _, _, .quaternary _ _ ha hb hc hd, hτ =>
    List.rel_append (List.rel_append (List.rel_append (ha.names hτ) (hb.names hτ))
      (hc.names hτ)) (hd.names hτ)
  | _, _, _, .indVec _ hl ht hm hb hp, hτ =>
    List.rel_append (List.rel_append
      (List.rel_append (List.rel_append (hl.names hτ) (ht.names hτ)) (hm.names hτ))
      (hb.names hτ)) (hp.names hτ)
  | _, _, _, .arrow _ ha hr, hτ => List.rel_append (ha.names hτ) (hr.names hτ)
  | _, _, _, .quant _ _ h, hτ => h.names hτ
  | _, _, _, .lambda _ h, hτ => h.names hτ
  | _, _, _, .apply _ hf ha, hτ => List.rel_append (hf.names hτ) (ha.names hτ)

theorem RenamedList.names : ∀ {τ : NameRelation} {es es' : List Expr},
    RenamedList span binder τ es es' →
    (∀ a b, τ a b → binder a b) → List.Forall₂ binder (namesOfList es) (namesOfList es')
  | _, _, _, .nil, _ => .nil
  | _, _, _, .cons h hs, hτ => List.rel_append (h.names hτ) (hs.names hτ)

theorem RenamedTelescope.names :
    ∀ {τ : NameRelation} {binders binders' : List (Site × Expr)} {body body' : Expr},
    RenamedTelescope span binder τ binders body binders' body' → (∀ a b, τ a b → binder a b) →
    List.Forall₂ binder (namesOfBinders binders ++ body.names)
      (namesOfBinders binders' ++ body'.names)
  | _, _, _, _, _, .nil h, hτ => h.names hτ
  | _, _, _, _, _, .cons _ hx hty h, hτ => by
    simp only [namesOfBinders, List.cons_append, List.append_assoc]
    exact .cons hx (List.rel_append (hty.names hτ) (h.names (push_binder hτ hx)))

theorem RenamedLambda.names :
    ∀ {τ : NameRelation} {sites sites' : List Site} {body body' : Expr},
    RenamedLambda span binder τ sites body sites' body' → (∀ a b, τ a b → binder a b) →
    List.Forall₂ binder (sites.map Site.name ++ body.names)
      (sites'.map Site.name ++ body'.names)
  | _, _, _, _, _, .nil h, hτ => h.names hτ
  | _, _, _, _, _, .cons _ hx h, hτ => .cons hx (h.names (push_binder hτ hx))

end

theorem RenamedList.refl {τ : NameRelation} {es : List Expr}
    (h : ∀ e ∈ es, Renamed span binder τ e e) :
    RenamedList span binder τ es es := by
  induction es with
  | nil => exact .nil
  | cons e es ih =>
    obtain ⟨he, hes⟩ := List.forall_mem_cons.1 h
    exact .cons he (ih hes)

/-- Parameters may be renamed to themselves. -/
theorem RenamedLambda.refl (hbinder : ∀ x, binder x x) {sites : List Site} {body : Expr}
    (hsites : ∀ x ∈ sites, span x.span x.span)
    (hbody : ∀ {τ : NameRelation}, (∀ a, τ a a) → Renamed span binder τ body body)
    {τ : NameRelation} (hτ : ∀ a, τ a a) :
    RenamedLambda span binder τ sites body sites body := by
  induction sites generalizing τ with
  | nil => exact .nil (hbody hτ)
  | cons x sites ih =>
    obtain ⟨hx, hsites⟩ := List.forall_mem_cons.1 hsites
    exact .cons hx (hbinder x.name) (ih hsites (push_refl hτ x.name))

/-- Typed binders may be renamed to themselves. -/
theorem RenamedTelescope.refl (hbinder : ∀ x, binder x x) {binders : List (Site × Expr)}
    {body : Expr} (hbinders : ∀ b ∈ binders, span b.1.span b.1.span ∧
      ∀ {τ : NameRelation}, (∀ a, τ a a) → Renamed span binder τ b.2 b.2)
    (hbody : ∀ {τ : NameRelation}, (∀ a, τ a a) → Renamed span binder τ body body)
    {τ : NameRelation} (hτ : ∀ a, τ a a) :
    RenamedTelescope span binder τ binders body binders body := by
  induction binders generalizing τ with
  | nil => exact .nil (hbody hτ)
  | cons b binders ih =>
    obtain ⟨⟨hspan, hty⟩, hbinders⟩ := List.forall_mem_cons.1 hbinders
    exact .cons hspan (hbinder b.1.name) (hty hτ) (ih hbinders (push_refl hτ b.1.name))

/-- An expression is a renaming of itself, if its places stand for themselves. -/
theorem Renamed.refl (hbinder : ∀ x, binder x x) {e : Expr} (hspan : ∀ s ∈ e.places, span s s)
    {τ : NameRelation} (hτ : ∀ a, τ a a) : Renamed span binder τ e e := by
  induction e using Expr.induction generalizing τ with
  | const s c => exact .const (hspan s List.mem_cons_self) c
  | todo s => exact .todo (hspan s List.mem_cons_self)
  | var s x => exact .var (hspan s List.mem_cons_self) (hτ x)
  | number s n => exact .number (hspan s List.mem_cons_self) n
  | quote s a => exact .quote (hspan s List.mem_cons_self) a
  | unary s o a iha =>
    obtain ⟨hs, ha⟩ := List.forall_mem_cons.1 hspan
    exact .unary hs o (iha ha hτ)
  | binary s o a b iha ihb =>
    simp only [places, List.forall_mem_cons, List.forall_mem_append] at hspan
    obtain ⟨hs, ha, hb⟩ := hspan
    exact .binary hs o (iha ha hτ) (ihb hb hτ)
  | ternary s o a b c iha ihb ihc =>
    simp only [places, List.forall_mem_cons, List.forall_mem_append] at hspan
    obtain ⟨hs, ⟨ha, hb⟩, hc⟩ := hspan
    exact .ternary hs o (iha ha hτ) (ihb hb hτ) (ihc hc hτ)
  | quaternary s o a b c d iha ihb ihc ihd =>
    simp only [places, List.forall_mem_cons, List.forall_mem_append] at hspan
    obtain ⟨hs, ⟨⟨ha, hb⟩, hc⟩, hd⟩ := hspan
    exact .quaternary hs o (iha ha hτ) (ihb hb hτ) (ihc hc hτ) (ihd hd hτ)
  | indVec s l t m b p ihl iht ihm ihb ihp =>
    simp only [places, List.forall_mem_cons, List.forall_mem_append] at hspan
    obtain ⟨hs, ⟨⟨⟨hl, ht⟩, hm⟩, hb⟩, hp⟩ := hspan
    exact .indVec hs (ihl hl hτ) (iht ht hτ) (ihm hm hτ) (ihb hb hτ) (ihp hp hτ)
  | arrow s domain rest ihd ihr =>
    simp only [places, placesOfList_eq, List.forall_mem_cons, List.forall_mem_append,
      List.forall_mem_flatMap] at hspan
    obtain ⟨hs, hd, hr⟩ := hspan
    exact .arrow hs (ihd hd hτ) (.refl fun a ha => ihr a ha (hr a ha) hτ)
  | quant s q binders body ihb ih =>
    simp only [places, placesOfBinders_eq, List.forall_mem_cons, List.forall_mem_append,
      List.forall_mem_flatMap] at hspan
    obtain ⟨hs, hb, hbody⟩ := hspan
    exact .quant hs q (.refl hbinder (fun b hmem => ⟨(hb b hmem).1, ihb b hmem (hb b hmem).2⟩)
      (ih hbody) hτ)
  | lambda s parameters body ih =>
    simp only [places, List.forall_mem_cons, List.forall_mem_append,
      List.forall_mem_map] at hspan
    obtain ⟨hs, hp, hbody⟩ := hspan
    exact .lambda hs (.refl hbinder hp (ih hbody) hτ)
  | apply s function arguments ihf iha =>
    simp only [places, placesOfList_eq, List.forall_mem_cons, List.forall_mem_append,
      List.forall_mem_flatMap] at hspan
    obtain ⟨hs, hf, ha⟩ := hspan
    exact .apply hs (ihf hf hτ) (.refl fun a hmem => iha a hmem (ha a hmem) hτ)

end Expr

end PieChecker.Surface
