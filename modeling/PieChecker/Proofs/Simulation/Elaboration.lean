import PieChecker.Proofs.Simulation.Rules

set_option autoImplicit false

/-!
# Elaborating renamed expressions in corresponding scopes

The rules of binders elaborate their parts in larger scopes. A binder that the program writes
makes its two names stand for each other below it, which is what a renaming assumes there. A
binder that elaboration introduces is given a name that occurs nowhere below it, so the
references below it are not affected.

`renamings` puts all rules together: renamed expressions have corresponding readings in
corresponding scopes.
-/

namespace PieChecker

/-- A correspondence of names, restricted to names that occur in two lists. -/
def NameRelation.on (τ : NameRelation) (L L' : List String) : NameRelation :=
  fun a b => τ a b ∧ a ∈ L ∧ b ∈ L'

namespace Worlds

open Likeness Surface

variable {K : Comparison} {𝒲 : Worlds K} {n m : Nat}

/-- Two renamed parts have corresponding readings in all scopes in which the names that occur in
them refer to corresponding things. -/
structure Renamings (𝒲 : Worlds K) (τ : NameRelation) (a a' : Part) : Prop where
  renamed : Expr.Renamed K.span K.binder τ a.expr a'.expr
  readings : ∀ {W S S'}, 𝒲.Scopes W (τ.on a.expr.names a'.expr.names) S S' →
    𝒲.Readings W S S' a.rules a'.rules

/-- In scopes in which more names refer to corresponding things, so do the two parts. -/
theorem Renamings.parts {τ : NameRelation} {a a' : Part} (h : 𝒲.Renamings τ a a')
    {W : ScopedWorld} {S S' : Scope} {L L' : List String} (hS : 𝒲.Scopes W (τ.on L L') S S')
    (hL : a.expr.names ⊆ L) (hL' : a'.expr.names ⊆ L') :
    𝒲.Parts W S S' a a' :=
  ⟨h.renamed.spans, h.readings (hS.mono fun _ _ ⟨hab, ha, hb⟩ => ⟨hab, hL ha, hL' hb⟩)⟩

/-- The names that occur in a list of parts. -/
def namesOf (parts : List Part) : List String := Expr.namesOfList (parts.map Part.expr)

theorem namesOf_cons (a : Part) (parts : List Part) :
    namesOf (a :: parts) = a.expr.names ++ namesOf parts := by
  simp only [namesOf, List.map_cons, Expr.namesOfList]

theorem namesOf_partsOfList (E : Engine) (es : List Expr) :
    namesOf (Expr.partsOfList E es) = Expr.namesOfList es := by
  induction es with
  | nil => rfl
  | cons e es ih => rw [Expr.partsOfList, namesOf_cons, ih, Expr.namesOfList]

theorem namesOf_forall₂ {τ : NameRelation} (hτ : ∀ a b, τ a b → K.binder a b)
    {parts parts' : List Part} (h : List.Forall₂ (𝒲.Renamings τ) parts parts') :
    List.Forall₂ K.binder (namesOf parts) (namesOf parts') := by
  induction h with
  | nil => exact .nil
  | cons ha _ ih => exact List.rel_append (ha.renamed.names hτ) ih

/-- The same for lists of parts. -/
theorem parts_forall₂ {τ : NameRelation} {parts parts' : List Part}
    (h : List.Forall₂ (𝒲.Renamings τ) parts parts') {W : ScopedWorld} {S S' : Scope}
    {L L' : List String} (hS : 𝒲.Scopes W (τ.on L L') S S') (hL : namesOf parts ⊆ L)
    (hL' : namesOf parts' ⊆ L') :
    List.Forall₂ (𝒲.Parts W S S') parts parts' := by
  induction h with
  | nil => exact .nil
  | cons ha _ ih =>
    rw [namesOf_cons, List.append_subset] at hL hL'
    exact .cons (ha.parts hS hL.1 hL'.1) (ih hL.2 hL'.2)

/-- Below a pair of binders, the names that occur there refer to corresponding things. -/
theorem Bound.scopes_on {W : ScopedWorld} {τ : NameRelation} {x x' : String}
    {L L' R R' : List String} {p p' : String × Scope}
    (h : 𝒲.Bound W ((τ.on L L').push x x') p p') (hL : R ⊆ L) (hL' : R' ⊆ L') :
    𝒲.Scopes (W.push p.1 p'.1) ((τ.push x x').on R R') p.2 p'.2 := by
  refine h.scopes.mono ?_
  rintro a b ⟨⟨ha, hb⟩ | ⟨ha, hb, hab⟩, hmem, hmem'⟩
  · exact Or.inl ⟨ha, hb⟩
  · exact Or.inr ⟨ha, hb, hab, hL hmem, hL' hmem'⟩

/-- Types whose binders the program does not name. -/
theorem nondependent (hK : Comparable K n m) (q : Quantifier) (c : Component) {τ : NameRelation}
    (hτ : ∀ a b, τ a b → K.binder a b) {a a' : Part} (ha : 𝒲.Renamings τ a a')
    {rest rest' : List Part} (hrest : List.Forall₂ (𝒲.Renamings τ) rest rest') {W : ScopedWorld}
    {S S' : Scope} (hS : 𝒲.Scopes W
      (τ.on (a.expr.names ++ namesOf rest) (a'.expr.names ++ namesOf rest')) S S') :
    𝒲.Checked (Core.Related K W.scope) (Rules.nondependent (K.leftEngine n) q c a rest S)
      (Rules.nondependent (K.rightEngine m) q c a' rest' S') := by
  have hpart : 𝒲.Parts W S S' a a' :=
    ha.parts hS (List.subset_append_left _ _) (List.subset_append_left _ _)
  induction hrest generalizing a a' W S S' with
  | nil => exact hpart.component c
  | @cons b b' rest rest' hb hrest ih =>
    have hfresh := 𝒲.fresh hS.context.admits (namesOf_forall₂ hτ (.cons hb hrest))
      (hK.binder "x")
    rw [← hS.context.left, ← hS.context.right] at hfresh
    refine (Comparison.lift hfresh).bind fun y z ⟨hyz, hy, hz, hW⟩ => ?_
    rw [List.mem_append, not_or, hS.context.left] at hy
    rw [List.mem_append, not_or, hS.context.right] at hz
    refine (hpart.component c).bind fun t t' ht => ?_
    refine (Comparison.lift (hS.context.evaluate hK ht)).bind fun v v' hv => ?_
    -- the new name occurs nowhere in what follows, so no reference there means it
    have hscopes : 𝒲.Scopes W (τ.on (namesOf (b :: rest)) (namesOf (b' :: rest'))) S S' :=
      hS.mono fun _ _ ⟨hab, hmem, hmem'⟩ =>
        ⟨hab, List.mem_append_right _ hmem, List.mem_append_right _ hmem'⟩
    have hhidden : ∀ x x', τ.on (namesOf (b :: rest)) (namesOf (b' :: rest')) x x' →
        x ≠ y ∧ x' ≠ z :=
      fun _ _ ⟨_, hmem, hmem'⟩ => ⟨fun h => hy.2 (h ▸ hmem), fun h => hz.2 (h ▸ hmem')⟩
    refine (hscopes.bindHidden hy.1 hz.1 hW hv hhidden).bind fun inner inner' hinner => ?_
    rw [namesOf_cons, namesOf_cons] at hinner
    have hnext := hb.parts hinner (List.subset_append_left _ _) (List.subset_append_left _ _)
    exact (ih hb hinner hnext).bind fun u u' hu => .of_ok (Core.Related.quant q hyz ht hu)

mutual

/-- Renamed expressions have corresponding readings in all corresponding scopes. -/
theorem renamings (hK : Comparable K n m) :
    ∀ {τ : NameRelation} {e e' : Expr}, Expr.Renamed K.span K.binder τ e e' →
    (∀ a b, τ a b → K.binder a b) →
    𝒲.Renamings τ ⟨e, e.rules (K.leftEngine n)⟩ ⟨e', e'.rules (K.rightEngine m)⟩
  | _, _, _, .const hs c, _ =>
    ⟨.const hs c, fun hS => by
      rw [Expr.rules, Expr.rules]
      exact const hK hS.context hs c⟩
  | _, _, _, .todo hs, _ =>
    ⟨.todo hs, fun hS => by
      rw [Expr.rules, Expr.rules]
      exact todo hK hS.context hs⟩
  | _, _, _, .var hs h, _ =>
    ⟨.var hs h, fun hS => by
      rw [Expr.rules, Expr.rules]
      exact var hK hS.context hs (hS.reference
        _ _ ⟨h, by simp [Expr.names], by simp [Expr.names]⟩)⟩
  | _, _, _, .number hs k, _ =>
    ⟨.number hs k, fun hS => by
      rw [Expr.rules, Expr.rules]
      exact number hK hS.context hs k⟩
  | _, _, _, .quote hs a, _ =>
    ⟨.quote hs a, fun hS => by
      rw [Expr.rules, Expr.rules]
      exact quote hK hS.context hs a⟩
  | _, _, _, .unary hs o ha, hτ =>
    ⟨.unary hs o ha, fun hS => by
      simp only [Expr.names] at hS
      rw [Expr.rules, Expr.rules]
      exact unary hK hS.context hs o
        ((renamings hK ha hτ).parts hS (fun _ h => h) (fun _ h => h))⟩
  | _, _, _, .binary hs o ha hb, hτ =>
    ⟨.binary hs o ha hb, fun hS => by
      simp only [Expr.names] at hS
      rw [Expr.rules, Expr.rules]
      by_cases ho : o = .pair
      · subst ho
        rw [Rules.binary, Rules.binary]
        refine former hK hS.context hs fun c =>
          nondependent hK .sigma c hτ (renamings hK ha hτ) (.cons (renamings hK hb hτ) .nil) ?_
        simpa only [namesOf, List.map_cons, List.map_nil, Expr.namesOfList,
          List.append_nil] using hS
      · exact binary hK hS.context hs ho
          ((renamings hK ha hτ).parts hS (fun _ h => by simp [h]) (fun _ h => by simp [h]))
          ((renamings hK hb hτ).parts hS (fun _ h => by simp [h]) (fun _ h => by simp [h]))⟩
  | _, _, _, .ternary hs o ha hb hc, hτ =>
    ⟨.ternary hs o ha hb hc, fun hS => by
      simp only [Expr.names] at hS
      rw [Expr.rules, Expr.rules]
      exact ternary hK hS.context hs o
        ((renamings hK ha hτ).parts hS (fun _ h => by simp [h]) (fun _ h => by simp [h]))
        ((renamings hK hb hτ).parts hS (fun _ h => by simp [h]) (fun _ h => by simp [h]))
        ((renamings hK hc hτ).parts hS (fun _ h => by simp [h]) (fun _ h => by simp [h]))⟩
  | _, _, _, .quaternary hs o ha hb hc hd, hτ =>
    ⟨.quaternary hs o ha hb hc hd, fun hS => by
      simp only [Expr.names] at hS
      rw [Expr.rules, Expr.rules]
      exact quaternary hK hS.context hs o
        ((renamings hK ha hτ).parts hS (fun _ h => by simp [h]) (fun _ h => by simp [h]))
        ((renamings hK hb hτ).parts hS (fun _ h => by simp [h]) (fun _ h => by simp [h]))
        ((renamings hK hc hτ).parts hS (fun _ h => by simp [h]) (fun _ h => by simp [h]))
        ((renamings hK hd hτ).parts hS (fun _ h => by simp [h]) (fun _ h => by simp [h]))⟩
  | _, _, _, .indVec hs hl ht hm hb hp, hτ =>
    ⟨.indVec hs hl ht hm hb hp, fun hS => by
      simp only [Expr.names] at hS
      rw [Expr.rules, Expr.rules]
      exact indVec hK hS.context hs
        ((renamings hK hl hτ).parts hS (fun _ h => by simp [h]) (fun _ h => by simp [h]))
        ((renamings hK ht hτ).parts hS (fun _ h => by simp [h]) (fun _ h => by simp [h]))
        ((renamings hK hm hτ).parts hS (fun _ h => by simp [h]) (fun _ h => by simp [h]))
        ((renamings hK hb hτ).parts hS (fun _ h => by simp [h]) (fun _ h => by simp [h]))
        ((renamings hK hp hτ).parts hS (fun _ h => by simp [h]) (fun _ h => by simp [h]))⟩
  | _, _, _, .arrow hs ha hr, hτ =>
    ⟨.arrow hs ha hr, fun hS => by
      simp only [Expr.names] at hS
      rw [Expr.rules, Expr.rules]
      refine former hK hS.context hs fun c =>
        nondependent hK .pi c hτ (renamings hK ha hτ) (renamedList hK hr hτ) ?_
      simpa only [namesOf_partsOfList] using hS⟩
  | _, _, _, .quant hs q h, hτ =>
    ⟨.quant hs q h, fun hS => by
      simp only [Expr.names] at hS
      rw [Expr.rules, Expr.rules]
      exact former hK hS.context hs fun c => renamedTelescope hK q c h hτ hS⟩
  | _, _, _, .lambda hs h, hτ =>
    ⟨.lambda hs h, fun hS => by
      simp only [Expr.names] at hS
      rw [Expr.rules, Expr.rules]
      exact checked hK hs fun hT => renamedLambda hK hs h hτ hS hT⟩
  | _, _, _, .apply hs hf ha, hτ =>
    ⟨.apply hs hf ha, fun hS => by
      simp only [Expr.names] at hS
      rw [Expr.rules, Expr.rules]
      have hfun := (renamings hK hf hτ).parts hS (fun _ h => by simp [h])
        (fun _ h => by simp [h])
      have hargs := parts_forall₂ (renamedList hK ha hτ) hS (by simp [namesOf_partsOfList])
        (by simp [namesOf_partsOfList])
      refine inferred hK hS.context hs ?_
      exact hfun.readings.synthesize.bind fun ⟨f, ty⟩ ⟨f', ty'⟩ ⟨hf, hty⟩ =>
        applyTo hK hS.context hs hargs hf hty⟩

theorem renamedList (hK : Comparable K n m) : ∀ {τ : NameRelation} {es es' : List Expr},
    Expr.RenamedList K.span K.binder τ es es' →
    (∀ a b, τ a b → K.binder a b) → List.Forall₂ (𝒲.Renamings τ)
    (Expr.partsOfList (K.leftEngine n) es)
      (Expr.partsOfList (K.rightEngine m) es')
  | _, _, _, .nil, _ => .nil
  | _, _, _, .cons h hs, hτ => .cons (renamings hK h hτ) (renamedList hK hs hτ)

/-- Renamed telescopes are elaborated in corresponding ways. -/
theorem renamedTelescope (hK : Comparable K n m) (q : Quantifier) (c : Component) :
    ∀ {τ : NameRelation} {binders binders' : List (Site × Expr)} {body body' : Expr},
    Expr.RenamedTelescope K.span K.binder τ binders body binders' body' →
    (∀ a b, τ a b → K.binder a b) →
    ∀ {W S S'}, 𝒲.Scopes W (τ.on (Expr.namesOfBinders binders ++ body.names)
      (Expr.namesOfBinders binders' ++ body'.names)) S S' →
    𝒲.Checked (Core.Related K W.scope)
      (Rules.telescope (K.leftEngine n) q c ⟨body, body.rules (K.leftEngine n)⟩
        (Expr.partsOfBinders (K.leftEngine n) binders) S)
      (Rules.telescope (K.rightEngine m) q c ⟨body', body'.rules (K.rightEngine m)⟩
        (Expr.partsOfBinders (K.rightEngine m) binders') S')
  | _, _, _, _, _, .nil h, hτ, _, _, _, hS =>
    ((renamings hK h hτ).parts hS (fun _ h => h) (fun _ h => h)).component c
  | _, _, _, _, _, .cons _ hx hty h, hτ, _, _, _, hS => by
    simp only [Expr.namesOfBinders, List.cons_append, List.append_assoc] at hS
    have hpart := (renamings hK hty hτ).parts hS (fun _ h => by simp [h])
      (fun _ h => by simp [h])
    refine (hpart.component c).bind fun t t' ht => ?_
    refine (Comparison.lift (hS.context.evaluate hK ht)).bind fun v v' hv => ?_
    refine (hS.bind hx hv).bind fun ⟨y, inner⟩ ⟨z, inner'⟩ hbound => ?_
    have hinner := hbound.scopes_on
      (fun _ h => List.mem_cons_of_mem _ (List.mem_append_right _ h))
      (fun _ h => List.mem_cons_of_mem _ (List.mem_append_right _ h))
    exact (renamedTelescope hK q c h (push_binder hτ hx) hinner).bind fun u u' hu =>
      .of_ok (Core.Related.quant q hbound.binder ht hu)

/-- Renamed functions are checked in corresponding ways. -/
theorem renamedLambda (hK : Comparable K n m) {s s' : Span} (hs : K.span s s') :
    ∀ {τ : NameRelation} {sites sites' : List Site} {body body' : Expr},
    Expr.RenamedLambda K.span K.binder τ sites body sites' body' →
    (∀ a b, τ a b → K.binder a b) →
    ∀ {W S S'}, 𝒲.Scopes W (τ.on (sites.map Site.name ++ body.names)
      (sites'.map Site.name ++ body'.names)) S S' →
    ∀ {T T'}, (renamed K W.var).Head T T' →
    𝒲.Checked (Core.Related K W.scope)
      (Rules.checkLambda (K.leftEngine n) s ⟨body, body.rules (K.leftEngine n)⟩ sites S T)
      (Rules.checkLambda (K.rightEngine m) s' ⟨body', body'.rules (K.rightEngine m)⟩
        sites' S' T')
  | _, _, _, _, _, .nil h, hτ, _, _, _, hS, _, _, hT =>
    ((renamings hK h hτ).parts hS (fun _ h => h) (fun _ h => h)).readings.check
      (renamed_closed.ofHead hT)
  | _, _, _, _, _, .cons _ hx h, hτ, W, _, _, hS, _, _, hT => by
    have hreject := rejectFormer hK hS.context (R := Core.Related K W.scope) hs .pi hT
    cases hT with
    | quant q _ hbase hfam =>
      cases q with
      | pi =>
        refine (hS.bind hx hbase).bind fun ⟨y, inner⟩ ⟨z, inner'⟩ hbound => ?_
        have hinner := hbound.scopes_on (fun _ h => List.mem_cons_of_mem _ h)
          (fun _ h => List.mem_cons_of_mem _ h)
        have hmono := renamed_mono (K := K)
          (𝒲.var_push hS.context.admits hbound.left hbound.right hbound.scopes.context.admits)
        refine (Comparison.lift (Contexts.run hK (hmono.closure hfam)
          (renamed_var (hmono.value hbase)))).bind fun r r' hr => ?_
        refine (Comparison.lift (renamed_closed.now hr)).bind fun T T' hT => ?_
        exact (renamedLambda hK hs h (push_binder hτ hx) hinner hT).bind fun u u' hu =>
          .of_ok (Core.Related.lam hbound.binder hu)
      | sigma => exact hreject
    | _ => exact hreject

end

end Worlds

end PieChecker
