import PieChecker.Proofs.Simulation.Elaboration

set_option autoImplicit false

/-!
# Elaboration is lexically scoped

Elaboration finds what a name refers to through three mechanisms: binders are renamed to names
that are not in use, the renaming is remembered, and the binders of arrows and pairs get names
that occur nowhere below them. None of them is visible in what a name means: it means the
innermost binder of that name that the program writes, and if there is none, what it means
outside of the expression.

`lexicalRules` is elaboration with references of this meaning, and with everything else as it
was. It agrees with elaboration on every expression.
-/

namespace PieChecker

/-- What a name means in a scope inside of an expression that stands in the context `Γ`: the
innermost binder of that name that the program writes, otherwise what it means in `Γ`. -/
def Scope.denotes (Γ : Context) (S : Scope) (x : String) : Except Cause (String × Value) :=
  match S.renamed.lookup x with
  | some y => (S.context.lookupType y).map (Prod.mk y)
  | none => (Γ.lookupType x).map (Prod.mk x)

/-- The rules of a name that means what lexical scoping says. -/
def Rules.lexicalVar (E : Engine) (Γ : Context) (span : Span) (x : String) : Rules :=
  inferred E span fun S => do
    let (y, ty) ← locateError span (S.denotes Γ x)
    return (.var y, ty)

namespace Surface.Expr

variable (E : Engine) (Γ : Context)

mutual

/-- The three readings of an expression in the context `Γ` under lexical scoping. -/
def lexicalRules : Expr → Rules
  | .const span c => Rules.const E span c
  | .todo span => Rules.todo E span
  | .var span x => Rules.lexicalVar E Γ span x
  | .number span n => Rules.number E span n
  | .quote span a => Rules.quote E span a
  | .unary span o a => Rules.unary E span o ⟨a, a.lexicalRules⟩
  | .binary span o a b => Rules.binary E span o ⟨a, a.lexicalRules⟩ ⟨b, b.lexicalRules⟩
  | .ternary span o a b c =>
    Rules.ternary E span o ⟨a, a.lexicalRules⟩ ⟨b, b.lexicalRules⟩ ⟨c, c.lexicalRules⟩
  | .quaternary span o a b c d =>
    Rules.quaternary E span o ⟨a, a.lexicalRules⟩ ⟨b, b.lexicalRules⟩ ⟨c, c.lexicalRules⟩
      ⟨d, d.lexicalRules⟩
  | .indVec span l t m b s =>
    Rules.indVec E span ⟨l, l.lexicalRules⟩ ⟨t, t.lexicalRules⟩ ⟨m, m.lexicalRules⟩
      ⟨b, b.lexicalRules⟩ ⟨s, s.lexicalRules⟩
  | .arrow span domain rest =>
    Rules.former E span fun c =>
      Rules.nondependent E .pi c ⟨domain, domain.lexicalRules⟩ (lexicalParts rest)
  | .quant span q binders body =>
    Rules.former E span fun c =>
      Rules.telescope E q c ⟨body, body.lexicalRules⟩ (lexicalBinders binders)
  | .lambda span parameters body =>
    Rules.checked span (Rules.checkLambda E span ⟨body, body.lexicalRules⟩ parameters)
  | .apply span function arguments =>
    Rules.inferred E span fun S => do
      let (term, ty) ← function.lexicalRules.synthesize S
      Rules.applyTo E span (lexicalParts arguments) S term ty

/-- The parts in a list of expressions. -/
def lexicalParts : List Expr → List Part
  | [] => []
  | e :: es => ⟨e, e.lexicalRules⟩ :: lexicalParts es

/-- The parts in a list of typed binders. -/
def lexicalBinders : List (Site × Expr) → List (Site × Part)
  | [] => []
  | (site, ty) :: binders => (site, ⟨ty, ty.lexicalRules⟩) :: lexicalBinders binders

end

end Surface.Expr

/-! ## Meanings below binders -/

/-- Names that occur in the list mean what lexical scoping says. -/
structure Scope.Lexical (Γ : Context) (S : Scope) (names : List String) : Prop where
  wellFormed : S.WellFormed
  reference_eq : ∀ x ∈ names, S.reference x = S.denotes Γ x

namespace Scope

variable {Γ : Context} {S : Scope}

/-- The names of a whole expression mean what they mean in its context. -/
theorem lexical_ofContext (Γ : Context) (names : List String) :
    (ofContext Γ).Lexical Γ names where
  wellFormed := nofun
  reference_eq x _ := reference_of_resolve (S := ofContext Γ) (x := x) (y := x) rfl

theorem Lexical.mono {names names' : List String} (h : S.Lexical Γ names)
    (hsub : names' ⊆ names) :
    S.Lexical Γ names' :=
  ⟨h.wellFormed, fun x hx => h.reference_eq x (hsub hx)⟩

/-- A new free name does not change what the binders of the program mean. -/
theorem lookupType_renamed (hS : S.WellFormed) {y : String} (hy : y ∉ S.context.names)
    (ty : Value) {x z : String} (h : S.renamed.lookup x = some z) :
    (S.context.extendFree y ty).lookupType z = S.context.lookupType z :=
  Context.lookupType_extendFree ty fun hzy => hy (hzy ▸ hS.mem_names h)

/-- By lexical scoping, a binder that the program writes changes the meaning of its own name
only. -/
theorem denotes_bind (hS : S.WellFormed) {y : String} (hy : y ∉ S.context.names) (x : String)
    (ty : Value) (a : String) :
    denotes Γ ⟨S.context.extendFree y ty, (x, y) :: S.renamed⟩ a = if a =
      x then .ok (y, ty) else S.denotes Γ a := by
  split
  · rename_i ha
    subst ha
    rw [denotes]
    simp only [List.lookup_cons_self, Context.lookupType_extendFree_self]
    rfl
  · rename_i ha
    have hlookup : ((x, y) :: S.renamed).lookup a = S.renamed.lookup a := by
      rw [List.lookup_cons, beq_false_of_ne ha]
    rw [denotes, denotes]
    simp only [hlookup]
    cases h : S.renamed.lookup a with
    | none => rfl
    | some z => simp only [lookupType_renamed hS hy ty h]

/-- By lexical scoping, a binder that elaboration introduces changes no meaning. -/
theorem denotes_bindHidden (hS : S.WellFormed) {y : String} (hy : y ∉ S.context.names)
    (ty : Value) (a : String) :
    denotes Γ ⟨S.context.extendFree y ty, S.renamed⟩ a = S.denotes Γ a := by
  rw [denotes, denotes]
  cases h : S.renamed.lookup a with
  | none => rfl
  | some z => simp only [lookupType_renamed hS hy ty h]

/-- Below a binder that the program writes, names mean what lexical scoping says. -/
theorem Lexical.bind {names : List String} (h : S.Lexical Γ names) {site : Surface.Site}
    {ty : Value} {y : String} {inner : Scope} (hbind : S.bind site ty = .ok (y, inner)) :
    inner.Lexical Γ names := by
  rw [Scope.bind] at hbind
  obtain ⟨z, hz, hbind⟩ := bind_eq_ok_iff.1 hbind
  have hnew : z ∉ S.context.names := Name.freshen_not_mem (Outcome.unrejected_eq_ok_iff.1 hz)
  rw [Context.bindFree_of_not_mem hnew] at hbind
  cases hbind
  refine ⟨?_, fun a ha => ?_⟩
  · intro w hw
    rcases List.mem_cons.1 hw with rfl | hw
    · exact List.mem_cons_self
    · exact List.mem_cons_of_mem _ (h.wellFormed w hw)
  · rw [reference_bind h.wellFormed hnew, denotes_bind h.wellFormed hnew, h.reference_eq a ha]

/-- Below a binder that elaboration introduces, so do names that the binder is not given. -/
theorem Lexical.bindHidden {names : List String} (h : S.Lexical Γ names) {y : String}
    {ty : Value} {span : Span} {inner : Scope} (hnew : y ∉ S.context.names) (hy : y ∉ names)
    (hbind : S.bindHidden y ty span = .ok inner) :
    inner.Lexical Γ names := by
  rw [Scope.bindHidden, Context.bindFree_of_not_mem hnew] at hbind
  cases hbind
  refine ⟨fun w hw => List.mem_cons_of_mem _ (h.wellFormed w hw), fun a ha => ?_⟩
  have hay : a ≠ y := fun hay => hy (hay ▸ ha)
  rw [reference_bindHidden h.wellFormed hnew ty hay, denotes_bindHidden h.wellFormed hnew,
    h.reference_eq a ha]

end Scope

/-! ## Rules with parts that agree -/

/-- Two rules give the same readings in a scope. -/
structure Rules.AgreeAt (S : Scope) (r r' : Rules) : Prop where
  synthesize : r.synthesize S = r'.synthesize S
  check : ∀ ty, r.check S ty = r'.check S ty
  isType : r.isType S = r'.isType S

/-- Two parts are of the same expression and give the same readings in a scope. -/
structure Part.AgreeAt (S : Scope) (a a' : Part) : Prop where
  expr : a.expr = a'.expr
  rules : a.rules.AgreeAt S a'.rules

namespace Part.AgreeAt

variable {S : Scope} {a a' : Part} (h : a.AgreeAt S a')

include h

theorem component (c : Component) : a.component c S = a'.component c S := by
  cases c with
  | type => exact h.rules.isType
  | ofUniverse => exact h.rules.check .univ

theorem span : a.span = a'.span := congrArg Surface.Expr.span h.expr

theorem findFormer (E : Engine) {α : Type} (former : Former) (parts? : Value → Option α) :
    Rules.findFormer E a former parts? S = Rules.findFormer E a' former parts? S := by
  rw [Rules.findFormer, Rules.findFormer, h.rules.synthesize, h.span]

theorem findNonempty (E : Engine) : Rules.findNonempty E a S = Rules.findNonempty E a' S := by
  rw [Rules.findNonempty, Rules.findNonempty, Rules.findVec, Rules.findVec,
    h.findFormer, h.span]

theorem checkMotive (E : Engine) (ty : Value) :
    Rules.checkMotive E a S ty = Rules.checkMotive E a' S ty := by
  rw [Rules.checkMotive, Rules.checkMotive, h.rules.check]

end Part.AgreeAt

namespace Rules

variable {E : Engine} {S : Scope}

theorem AgreeAt.refl (r : Rules) : r.AgreeAt S r := ⟨rfl, fun _ => rfl, rfl⟩

theorem inferred_agree (s : Span) {find find' : Scope → Checked (Core × Value)}
    (h : find S = find' S) :
    (inferred E s find).AgreeAt S (inferred E s find') where
  synthesize := h
  check ty := by simp only [inferred, checkFound, h]
  isType := by simp only [inferred, asType, checkFound, h]

theorem former_agree (s : Span) {build build' : Component → Scope → Checked Core}
    (h : ∀ c, build c S = build' c S) : (former E s build).AgreeAt S (former E s build') where
  synthesize := by simp only [former, h]
  check ty := by simp only [former, checkFound, h]
  isType := h .type

theorem checked_agree (s : Span) {check check' : Scope → Value → Checked Core}
    (h : ∀ ty, check S ty = check' S ty) : (checked s check).AgreeAt S (checked s check') where
  synthesize := rfl
  check ty := by simp only [checked, h]
  isType := by simp only [checked, asType, h]

theorem unary_agree (s : Span) (o : Unary) {a a' : Part} (h : a.AgreeAt S a') :
    (unary E s o a).AgreeAt S (unary E s o a') := by
  have hc := h.rules.check
  cases o with
  | add1 => exact inferred_agree s (by simp only [hc])
  | car | cdr => exact inferred_agree s (by simp only [findQuant, h.findFormer])
  | list =>
    rw [unary, unary]
    exact former_agree s fun c => by simp only [h.component]
  | same | left | right => exact checked_agree s fun ty => by simp only [hc]
  | symm => exact inferred_agree s (by simp only [findEqual, h.findFormer])
  | head | tail => exact inferred_agree s (by simp only [h.findNonempty])

theorem binary_agree (s : Span) (o : Surface.Binary) (ho : o ≠ .pair) {a a' b b' : Part}
    (h : a.AgreeAt S a') (g : b.AgreeAt S b') :
    (binary E s o a b).AgreeAt S (binary E s o a' b') := by
  have hc := h.rules.check
  have gc := g.rules.check
  cases o with
  | pair => exact (ho rfl).elim
  | the => exact inferred_agree s (by simp only [h.rules.isType, gc])
  | cons | vecCons => exact checked_agree s fun ty => by simp only [hc, gc]
  | listCons => exact inferred_agree s (by simp only [h.rules.synthesize, gc])
  | indAbsurd => exact inferred_agree s (by simp only [hc, g.rules.isType])
  | trans =>
    exact inferred_agree s (by simp only [findEqual, h.findFormer, g.findFormer, g.span])
  | cong =>
    exact inferred_agree s
      (by simp only [findEqual, findQuant, h.findFormer, g.findFormer, g.span])
  | vec =>
    rw [binary, binary]
    exact former_agree s fun c => by simp only [h.component, gc]
  | either =>
    rw [binary, binary]
    exact former_agree s fun c => by simp only [h.component, g.component]

theorem ternary_agree (s : Span) (o : Surface.Ternary) {a a' b b' c c' : Part}
    (h : a.AgreeAt S a') (g : b.AgreeAt S b') (k : c.AgreeAt S c') :
    (ternary E s o a b c).AgreeAt S (ternary E s o a' b' c') := by
  have hc := h.rules.check
  have gc := g.rules.check
  have kc := k.rules.check
  cases o with
  | whichNat | iterNat | recNat =>
    exact inferred_agree s (by simp only [hc, g.rules.synthesize, kc])
  | recList =>
    exact inferred_agree s (by simp only [findList, h.findFormer, g.rules.synthesize, kc])
  | equal =>
    rw [ternary, ternary]
    exact former_agree s fun c => by simp only [h.component, gc, kc]
  | replace | indEq =>
    exact inferred_agree s (by simp only [findEqual, h.findFormer, g.checkMotive, kc])

theorem quaternary_agree (s : Span) (o : Surface.Quaternary) {a a' b b' c c' d d' : Part}
    (h : a.AgreeAt S a') (g : b.AgreeAt S b') (k : c.AgreeAt S c') (l : d.AgreeAt S d') :
    (quaternary E s o a b c d).AgreeAt S (quaternary E s o a' b' c' d') := by
  have hc := h.rules.check
  have kc := k.rules.check
  have lc := l.rules.check
  cases o with
  | indNat => exact inferred_agree s (by simp only [hc, g.checkMotive, kc, lc])
  | indList =>
    exact inferred_agree s (by simp only [findList, h.findFormer, g.checkMotive, kc, lc])
  | indEither => exact inferred_agree s (by simp only [h.findFormer, g.checkMotive, kc, lc])

theorem indVec_agree (s : Span) {l l' t t' m m' b b' p p' : Part} (hl : l.AgreeAt S l')
    (ht : t.AgreeAt S t') (hm : m.AgreeAt S m') (hb : b.AgreeAt S b') (hp : p.AgreeAt S p') :
    (indVec E s l t m b p).AgreeAt S (indVec E s l' t' m' b' p') := by
  have hlc := hl.rules.check
  have hbc := hb.rules.check
  have hpc := hp.rules.check
  exact inferred_agree s
    (by simp only [hlc, findVec, ht.findFormer, hl.span, hm.checkMotive, hbc, hpc])

theorem applyTo_agree (s : Span) {as as' : List Part} (h : List.Forall₂ (Part.AgreeAt S) as as')
    (f : Core) (ty : Value) : applyTo E s as S f ty = applyTo E s as' S f ty := by
  induction h generalizing f ty with
  | nil => rfl
  | cons ha _ ih => simp only [applyTo, ha.rules.check, ih]

end Rules

/-! ## Agreement -/

namespace Surface.Expr

open Rules Worlds

variable (E : Engine) (Γ : Context)

/-- Two parts of the same expression agree in every scope in which the names that occur in them
are lexical. -/
structure AgreeIn (Γ : Context) (a a' : Part) : Prop where
  expr : a.expr = a'.expr
  rules : ∀ {S}, S.Lexical Γ a.expr.names → a.rules.AgreeAt S a'.rules

variable {Γ}

theorem AgreeIn.at {a a' : Part} (h : AgreeIn Γ a a') {S : Scope} {L : List String}
    (hS : S.Lexical Γ L) (hL : a.expr.names ⊆ L) : a.AgreeAt S a' :=
  ⟨h.expr, h.rules (hS.mono hL)⟩

theorem map_expr_eq {parts parts' : List Part} (h : List.Forall₂ (AgreeIn Γ) parts parts') :
    parts.map Part.expr = parts'.map Part.expr := by
  induction h with
  | nil => rfl
  | cons ha _ ih => rw [List.map_cons, List.map_cons, ha.expr, ih]

theorem agreeAt_forall₂ {parts parts' : List Part} (h : List.Forall₂ (AgreeIn Γ) parts parts')
    {S : Scope} {L : List String} (hS : S.Lexical Γ L) (hL : namesOf parts ⊆ L) :
    List.Forall₂ (Part.AgreeAt S) parts parts' := by
  induction h with
  | nil => exact .nil
  | cons ha _ ih =>
    rw [namesOf_cons, List.append_subset] at hL
    exact .cons (ha.at hS hL.1) (ih hL.2)

/-- Types whose binders the program does not name: the names that they are given occur nowhere
below them. -/
theorem nondependent_agree (q : Quantifier) (c : Component) {a a' : Part} (ha : AgreeIn Γ a a')
    {rest rest' : List Part} (hrest : List.Forall₂ (AgreeIn Γ) rest rest') {S : Scope}
    (hS : S.Lexical Γ (a.expr.names ++ namesOf rest)) :
    Rules.nondependent E q c a rest S = Rules.nondependent E q c a' rest' S := by
  induction hrest generalizing a a' S with
  | nil => exact (ha.at hS (List.subset_append_left _ _)).component c
  | @cons b b' rest rest' hb hrest ih =>
    have hpart := ha.at hS (List.subset_append_left _ _)
    rw [Rules.nondependent, Rules.nondependent, map_expr_eq (.cons hb hrest),
      hpart.component, hpart.span]
    refine bind_congr_of_ok fun x hx => ?_
    refine bind_congr_of_ok fun base _ => ?_
    refine bind_congr_of_ok fun v _ => ?_
    refine bind_congr_of_ok fun inner hinner => ?_
    have hx := Name.freshen_not_mem (Outcome.unrejected_eq_ok_iff.1 hx)
    rw [← map_expr_eq (.cons hb hrest), List.mem_append, not_or] at hx
    have hbelow := (hS.mono (List.subset_append_right _ _)).bindHidden hx.1 hx.2 hinner
    rw [namesOf_cons] at hbelow
    rw [ih hb hbelow]

/-- Parameters that the program names. -/
theorem checkLambda_agree (s : Span) {body body' : Part} (h : AgreeIn Γ body body')
    (sites : List Site) {S : Scope} (hS : S.Lexical Γ body.expr.names) (ty : Value) :
    Rules.checkLambda E s body sites S ty = Rules.checkLambda E s body' sites S ty := by
  induction sites generalizing S ty with
  | nil => exact (h.rules hS).check ty
  | cons site sites ih =>
    cases ty with
    | quant q x base family =>
      cases q with
      | pi =>
        rw [Rules.checkLambda, Rules.checkLambda]
        refine bind_congr_of_ok fun p hp => ?_
        obtain ⟨y, inner⟩ := p
        simp only [ih (hS.bind hp)]
      | sigma => rfl
    | _ => rfl

mutual

/-- Elaboration agrees with lexically scoped elaboration. -/
theorem rules_agree (Γ : Context) : ∀ e : Expr, AgreeIn Γ ⟨e, e.rules E⟩ ⟨e, e.lexicalRules E Γ⟩
  | .const s c => ⟨rfl, fun _ => by rw [rules, lexicalRules]; exact .refl _⟩
  | .todo s => ⟨rfl, fun _ => by rw [rules, lexicalRules]; exact .refl _⟩
  | .var s x =>
    ⟨rfl, fun hS => by
      rw [rules, lexicalRules]
      refine inferred_agree s ?_
      rw [hS.reference_eq x (by simp [names])]⟩
  | .number s n => ⟨rfl, fun _ => by rw [rules, lexicalRules]; exact .refl _⟩
  | .quote s a => ⟨rfl, fun _ => by rw [rules, lexicalRules]; exact .refl _⟩
  | .unary s o a =>
    ⟨rfl, fun hS => by
      simp only [names] at hS
      rw [rules, lexicalRules]
      exact unary_agree s o ((rules_agree Γ a).at hS fun _ h => h)⟩
  | .binary s o a b =>
    ⟨rfl, fun hS => by
      simp only [names] at hS
      rw [rules, lexicalRules]
      by_cases ho : o = .pair
      · subst ho
        rw [Rules.binary, Rules.binary]
        refine former_agree s fun c =>
          nondependent_agree E .sigma c (rules_agree Γ a) (.cons (rules_agree Γ b) .nil) ?_
        simpa only [namesOf, List.map_cons, List.map_nil, namesOfList, List.append_nil] using hS
      · exact binary_agree s o ho ((rules_agree Γ a).at hS fun _ h => by simp [h])
          ((rules_agree Γ b).at hS fun _ h => by simp [h])⟩
  | .ternary s o a b c =>
    ⟨rfl, fun hS => by
      simp only [names] at hS
      rw [rules, lexicalRules]
      exact ternary_agree s o ((rules_agree Γ a).at hS fun _ h => by simp [h])
        ((rules_agree Γ b).at hS fun _ h => by simp [h])
        ((rules_agree Γ c).at hS fun _ h => by simp [h])⟩
  | .quaternary s o a b c d =>
    ⟨rfl, fun hS => by
      simp only [names] at hS
      rw [rules, lexicalRules]
      exact quaternary_agree s o ((rules_agree Γ a).at hS fun _ h => by simp [h])
        ((rules_agree Γ b).at hS fun _ h => by simp [h])
        ((rules_agree Γ c).at hS fun _ h => by simp [h])
        ((rules_agree Γ d).at hS fun _ h => by simp [h])⟩
  | .indVec s l t m b p =>
    ⟨rfl, fun hS => by
      simp only [names] at hS
      rw [rules, lexicalRules]
      exact indVec_agree s ((rules_agree Γ l).at hS fun _ h => by simp [h])
        ((rules_agree Γ t).at hS fun _ h => by simp [h])
        ((rules_agree Γ m).at hS fun _ h => by simp [h])
        ((rules_agree Γ b).at hS fun _ h => by simp [h])
        ((rules_agree Γ p).at hS fun _ h => by simp [h])⟩
  | .arrow s domain rest =>
    ⟨rfl, fun hS => by
      simp only [names] at hS
      rw [rules, lexicalRules]
      refine former_agree s fun c =>
        nondependent_agree E .pi c (rules_agree Γ domain) (parts_agree Γ rest) ?_
      simpa only [namesOf_partsOfList] using hS⟩
  | .quant s q binders body =>
    ⟨rfl, fun hS => by
      simp only [names] at hS
      rw [rules, lexicalRules]
      exact former_agree s fun c => telescope_agree Γ q c (rules_agree Γ body) binders hS⟩
  | .lambda s sites body =>
    ⟨rfl, fun hS => by
      simp only [names] at hS
      rw [rules, lexicalRules]
      exact checked_agree s fun ty =>
        checkLambda_agree E s (rules_agree Γ body) sites
          (hS.mono (List.subset_append_right _ _)) ty⟩
  | .apply s f as =>
    ⟨rfl, fun hS => by
      simp only [names] at hS
      rw [rules, lexicalRules]
      have hfun := (rules_agree Γ f).at hS fun _ h => by simp [h]
      have hargs := agreeAt_forall₂ (parts_agree Γ as) hS (by simp [namesOf_partsOfList])
      have hrule : (f.rules E).synthesize _ = (f.lexicalRules E Γ).synthesize _ :=
        hfun.rules.synthesize
      refine inferred_agree s ?_
      simp only [hrule, applyTo_agree s hargs]⟩

theorem parts_agree (Γ : Context) : ∀ es : List Expr,
    List.Forall₂ (AgreeIn Γ) (partsOfList E es) (lexicalParts E Γ es)
  | [] => .nil
  | e :: es => .cons (rules_agree Γ e) (parts_agree Γ es)

/-- Binders that the program names, each with its type. -/
theorem telescope_agree (Γ : Context) (q : Quantifier) (c : Component) {body body' : Part}
    (h : AgreeIn Γ body body') : ∀ (binders : List (Site × Expr)) {S : Scope},
    S.Lexical Γ (namesOfBinders binders ++ body.expr.names) →
    Rules.telescope E q c body (partsOfBinders E binders) S =
      Rules.telescope E q c body' (lexicalBinders E Γ binders) S
  | [], _, hS => (h.at hS (fun _ h => h)).component c
  | (site, ty) :: binders, _, hS => by
    simp only [namesOfBinders, List.cons_append, List.append_assoc] at hS
    have hty := (rules_agree Γ ty).at hS fun _ h => by simp [h]
    rw [partsOfBinders, lexicalBinders, Rules.telescope, Rules.telescope, hty.component]
    refine bind_congr_of_ok fun base _ => ?_
    refine bind_congr_of_ok fun v _ => ?_
    refine bind_congr_of_ok fun p hp => ?_
    obtain ⟨y, inner⟩ := p
    have hsub : namesOfBinders binders ++ body.expr.names ⊆
        site.name :: (ty.names ++ (namesOfBinders binders ++ body.expr.names)) :=
      fun _ h => List.mem_cons_of_mem _ (List.mem_append_right _ h)
    have hinner := (hS.mono hsub).bind hp
    simp only [telescope_agree Γ q c h binders hinner]

end

end Surface.Expr

end PieChecker
