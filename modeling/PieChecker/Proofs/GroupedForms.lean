import PieChecker.Proofs.Parsing.Placement
import PieChecker.Proofs.Provenance

set_option autoImplicit false

/-!
# Grouped forms

A `λ` may have several parameters, a `Π` or `Σ` several binders, an arrow several domains and an
application several arguments. Each of them means what its nested spelling means, with one of
them at a time: the two are elaborated to the same term and the same type, or rejected for the
same cause.

Only the place of a rejection may differ, since the nested spelling has forms in it that the
grouped one has not. A type former inside another one is never rejected itself, so the places of
these forms matter for functions only: a type that is not that of a function is reported at the
`λ` or the application that asks for one.
-/

namespace PieChecker

/-! ## Nested spellings -/

namespace Surface.Expr

/-- A function with one parameter at a time, each with the span of the `λ` that binds it. -/
def nestedLambda (body : Expr) : List (Span × Site) → Expr
  | [] => body
  | (s, x) :: parameters => .lambda s [x] (nestedLambda body parameters)

/-- A dependent type with one binder at a time, each with the span of the form that it stands
in. -/
def nestedQuant (q : Quantifier) (body : Expr) : List (Span × Site × Expr) → Expr
  | [] => body
  | (s, binder) :: binders => .quant s q [binder] (nestedQuant q body binders)

/-- The application to one argument at a time, each with the span of the application to it. -/
def nestedApply (function : Expr) : List (Span × Expr) → Expr
  | [] => function
  | (s, a) :: arguments => nestedApply (.apply s function [a]) arguments

/-- An expression as a part of another one. -/
abbrev toPart (E : Engine) (e : Expr) : Part := ⟨e, e.rules E⟩

end Surface.Expr

/-! ## Computations that match -/

/-- The cause is another one than a mismatch of types. -/
def Cause.NotMismatch (c : Cause) : Prop := ∀ expected found, c ≠ .typeMismatch expected found

/-- Two computations have the same result, or are rejected for the same cause. The places of the
rejections differ only if the cause is one of the given ones. -/
inductive Checked.Matches (movable : Cause → Prop) {α : Type} :
    Checked α → Checked α → Prop where
  | same (r : Checked α) : Matches movable r r
  | moved {cause : Cause} (h : movable cause) (s s' : Span) :
      Matches movable (reject s cause) (reject s' cause)

/-- The same result, or a rejection for the same cause, at whatever place. -/
abbrev Checked.SameButForPlace {α : Type} (r r' : Checked α) : Prop :=
  Checked.Matches (fun _ => True) r r'

namespace Checked.Matches

variable {movable : Cause → Prop} {α β : Type}

theorem mono {movable' : Cause → Prop} (imp : ∀ c, movable c → movable' c) {r r' : Checked α}
    (h : Matches movable r r') : Matches movable' r r' := by
  cases h with
  | same => exact .same _
  | moved h s s' => exact .moved (imp _ h) s s'

theorem bind {r r' : Checked α} {f f' : α → Checked β} (h : Matches movable r r')
    (next : ∀ a, Matches movable (f a) (f' a)) : Matches movable (r >>= f) (r' >>= f') := by
  cases h with
  | same =>
    cases r with
    | ok a => exact next a
    | error e => exact .same _
  | moved h s s' => exact .moved h s s'

/-- After a first step that is the same, the next ones need to match for its result only. -/
theorem bind_same {r : Checked α} {f f' : α → Checked β}
    (next : ∀ a, r = .ok a → Matches movable (f a) (f' a)) :
    Matches movable (r >>= f) (r >>= f') := by
  cases r with
  | ok a => exact next a rfl
  | error e => exact .same _

theorem trans {r r' r'' : Checked α} (h : Matches movable r r') (h' : Matches movable r' r'') :
    Matches movable r r'' := by
  cases h with
  | same => exact h'
  | moved h s s' =>
    generalize hr : reject s' _ = r at h'
    cases h' with
    | same =>
      subst hr
      exact .moved h s s'
    | moved _ t t' =>
      cases hr
      exact .moved h s t'

theorem relocateError (f : Span → Span) (r : Checked α) :
    Matches (fun _ => True) r (relocateError f r) := by
  rcases r with (e | stop) | a
  · exact .moved True.intro e.span (f e.span)
  · exact .same _
  · exact .same _

theorem locate {s s' : Span} (hs : s = s' ∨ ∀ c, movable c) (r : Except (Interrupt Cause) α) :
    Matches movable (locate s r) (locate s' r) := by
  obtain rfl | hall := hs
  · exact .same _
  · rcases r with (c | stop) | a
    · exact .moved (hall c) s s'
    · exact .same _
    · exact .same _

theorem rejectFormer (E : Engine) (S : Scope) (s s' : Span) (former : Former) (found : Value)
    (h : ∀ found, movable (.expectedFormer former found)) :
    Matches movable (S.rejectFormer E s former found : Checked α)
      (S.rejectFormer E s' former found) :=
  bind_same fun found _ => .moved (h found) s s'

end Checked.Matches

open Checked

namespace Rules

/-- The three readings match. -/
structure Matches (movable : Cause → Prop) (r r' : Rules) : Prop where
  synthesize : ∀ S, Checked.Matches movable (r.synthesize S) (r'.synthesize S)
  check : ∀ S ty, Checked.Matches movable (r.check S ty) (r'.check S ty)
  isType : ∀ S, Checked.Matches movable (r.isType S) (r'.isType S)

/-- The three readings have the same results, or rejections for the same causes, at whatever
places. -/
abbrev SameButForPlace (r r' : Rules) : Prop := r.Matches (fun _ => True) r'

section Patterns

variable {E : Engine} {movable : Cause → Prop} {s s' : Span}

theorem checkFound_matches (hs : s = s' ∨ ∀ c, movable c)
    {find find' : Scope → Checked (Core × Value)} {S : Scope}
    (h : Checked.Matches movable (find S) (find' S)) (ty : Value) :
    Checked.Matches movable (checkFound E s find S ty) (checkFound E s' find' S ty) :=
  .bind (.same _) fun _ => h.bind fun _ => .bind (.locate hs _) fun _ => .same _

/-- Only a mismatch changes when an expression is read as a type. -/
theorem asType_matches (hmovable : ∀ e f, ¬movable (.typeMismatch e f))
    {check check' : Scope → Value → Checked Core} {S : Scope}
    (h : Checked.Matches movable (check S .univ) (check' S .univ)) :
    Checked.Matches movable (asType s check S) (asType s check' S) := by
  unfold asType
  generalize check S .univ = r at h
  generalize check' S .univ = r' at h
  cases h with
  | same => exact .same _
  | @moved cause hcause t t' =>
    cases cause with
    | typeMismatch e f => exact (hmovable e f hcause).elim
    | _ => exact .moved hcause t t'

/-- That a type former is missing is reported as it is. -/
theorem asType_rejectFormer {check : Scope → Value → Checked Core} {S : Scope} {former : Former}
    {found : Value} (h : check S .univ = S.rejectFormer E s' former found) :
    asType s check S = S.rejectFormer E s' former found := by
  unfold asType
  rw [h]
  unfold Scope.rejectFormer
  cases S.context.readBackType E found <;> rfl

/-- An expression whose type is found in two ways that match is read alike, at one place. -/
theorem inferred_matches (hmovable : ∀ e f, ¬movable (.typeMismatch e f))
    {find find' : Scope → Checked (Core × Value)}
    (h : ∀ S, Checked.Matches movable (find S) (find' S)) :
    (inferred E s find).Matches movable (inferred E s find') where
  synthesize := h
  check S ty := checkFound_matches (.inl rfl) (h S) ty
  isType S := asType_matches hmovable (checkFound_matches (.inl rfl) (h S) .univ)

/-- What can only be checked, and never as a type, is read alike at whatever place if it is
checked alike. -/
theorem checked_matches (hall : ∀ c, movable c) {check check' : Scope → Value → Checked Core}
    {former : Former} (hcheck : ∀ S ty, ty.now = .ok ty →
      Checked.Matches movable (check S ty) (check' S ty))
    (huniv : ∀ S, check S .univ = S.rejectFormer E s former .univ)
    (huniv' : ∀ S, check' S .univ = S.rejectFormer E s' former .univ) :
    (checked s check).Matches movable (checked s' check') where
  synthesize S := .moved (hall _) s s'
  check S ty := .bind_same fun T hT =>
    hcheck S T (Value.now_of_now (Outcome.unrejected_eq_ok_iff.1 hT))
  isType S := by
    have htype : (checked s check).isType S = S.rejectFormer E s former .univ :=
      asType_rejectFormer (huniv S)
    have htype' : (checked s' check').isType S = S.rejectFormer E s' former .univ :=
      asType_rejectFormer (huniv' S)
    rw [htype, htype']
    exact .rejectFormer E S s s' former .univ fun _ => hall _

/-- A type former that is built in the same way is read alike, at whatever place. -/
theorem former_matches (hall : ∀ c, movable c) {build build' : Component → Scope → Checked Core}
    (h : ∀ c S, build c S = build' c S) :
    (former E s build).Matches movable (former E s' build') := by
  obtain rfl : build = build' := funext fun c => funext fun S => h c S
  exact
    { synthesize := fun S => .same _
      check := fun S ty => checkFound_matches (.inr hall)
        (.same ((former E s build).synthesize S)) ty
      isType := fun S => .same _ }

/-- With some fuel, `U` is the same type as itself. -/
theorem sameType_univ (hfuel : 0 < E.fuel) (Γ : Context) :
    Γ.sameType E .univ .univ = .ok () := by
  obtain ⟨strategy, n⟩ := E
  obtain ⟨n, rfl⟩ := Nat.exists_eq_succ_of_ne_zero (Nat.pos_iff_ne_zero.1 hfuel)
  rfl

/-- A type former is never rejected itself where `U` is expected. -/
theorem former_check_univ {build : Component → Scope → Checked Core} {S : Scope}
    (hfuel : ∀ t, build .ofUniverse S = .ok t → 0 < E.fuel) :
    (former E s build).check S .univ = build .ofUniverse S := by
  show ((build .ofUniverse S >>= fun t => .ok (t, Value.univ)) >>= fun p =>
    locate s (S.context.sameType E .univ p.2) >>= fun _ => .ok p.1) = _
  cases ht : build .ofUniverse S with
  | error e => rfl
  | ok t =>
    show (locate s (S.context.sameType E .univ .univ) >>= fun _ => .ok t) = _
    rw [sameType_univ (hfuel t ht)]
    rfl

/-- So it is read as a part of another one as it is built. -/
theorem component_former {e : Surface.Expr} {build : Component → Scope → Checked Core}
    (he : e.rules E = former E s build) {c : Component} {S : Scope}
    (hfuel : ∀ t, build c S = .ok t → 0 < E.fuel) :
    (e.toPart E).component c S = build c S := by
  cases c with
  | type =>
    show (e.rules E).isType S = _
    rw [he]
    rfl
  | ofUniverse =>
    show (e.rules E).check S .univ = _
    rw [he]
    exact former_check_univ hfuel

end Patterns

/-! ## Type formers -/

section Formers

variable {E : Engine} {q : Quantifier} {c : Component}

/-- What has been evaluated had some fuel. -/
theorem fuel_pos_of_evaluate {Γ : Context} {t : Core} {v : Value} (h : Γ.evaluate E t = .ok v) :
    0 < E.fuel := by
  obtain ⟨strategy, n⟩ := E
  cases n with
  | zero => cases h
  | succ n => exact n.succ_pos

theorem fuel_pos_of_telescope {body : Part} {b : Surface.Site × Part}
    {binders : List (Surface.Site × Part)} {S : Scope} {t : Core}
    (h : telescope E q c body (b :: binders) S = .ok t) : 0 < E.fuel := by
  obtain ⟨base, _, h⟩ := bind_eq_ok_iff.1 h
  obtain ⟨v, hv, _⟩ := bind_eq_ok_iff.1 h
  exact fuel_pos_of_evaluate (Outcome.unrejected_eq_ok_iff.1 hv)

/-- The binders of a dependent type can be nested. -/
theorem telescope_eq_nested (body : Surface.Expr)
    (binders : List (Span × Surface.Site × Surface.Expr)) (S : Scope) :
    telescope E q c (body.toPart E) (binders.map fun b => (b.2.1, b.2.2.toPart E)) S =
      ((Surface.Expr.nestedQuant q body binders).toPart E).component c S := by
  induction binders generalizing S with
  | nil => rfl
  | cons b binders ih =>
    obtain ⟨s, site, ty⟩ := b
    have hnested : (Surface.Expr.nestedQuant q body ((s, site, ty) :: binders)).rules E =
        former E s fun c => telescope E q c ((Surface.Expr.nestedQuant q body binders).toPart E)
          [(site, ty.toPart E)] := by
      simp only [Surface.Expr.nestedQuant, Surface.Expr.rules, Surface.Expr.partsOfBinders]
    rw [component_former hnested fun t => fuel_pos_of_telescope]
    simp only [List.map_cons, telescope, ih]

theorem telescope_cons_eq_nested (body : Surface.Expr) (b : Surface.Site × Part)
    (binders : List (Span × Surface.Site × Surface.Expr)) (S : Scope) :
    telescope E q c (body.toPart E) (b :: binders.map fun b => (b.2.1, b.2.2.toPart E)) S =
      telescope E q c ((Surface.Expr.nestedQuant q body binders).toPart E) [b] S := by
  simp only [telescope, telescope_eq_nested]

/-- So can the domains of an arrow. -/
theorem nondependent_eq_nested (s : Span) (A B : Surface.Expr) (rest : List Surface.Expr)
    (S : Scope) :
    nondependent E .pi c (A.toPart E) (Surface.Expr.partsOfList E (B :: rest)) S =
      nondependent E .pi c (A.toPart E) (Surface.Expr.partsOfList E [.arrow s B rest]) S := by
  have hnested : (Surface.Expr.arrow s B rest).rules E = former E s fun c =>
      nondependent E .pi c (B.toPart E) (Surface.Expr.partsOfList E rest) := by
    simp only [Surface.Expr.rules]
  have hnames : Surface.Expr.namesOfList [.arrow s B rest] =
      Surface.Expr.namesOfList (B :: rest) := by
    simp only [Surface.Expr.namesOfList, Surface.Expr.names, List.append_nil]
  have hexprs : ∀ es, (Surface.Expr.partsOfList E es).map Part.expr = es := by
    intro es
    simp only [Surface.Expr.partsOfList_eq, List.map_map, Function.comp_def, List.map_id']
  simp only [Surface.Expr.partsOfList, nondependent, List.map_cons, List.map_nil,
    hexprs, hnames]
  refine bind_congr_of_ok fun x _ => bind_congr_of_ok fun base _ =>
    bind_congr_of_ok fun v hv => ?_
  have hfuel := fuel_pos_of_evaluate (Outcome.unrejected_eq_ok_iff.1 hv)
  simp only [component_former hnested fun _ _ => hfuel]

end Formers

/-! ## Functions -/

theorem check_lambda_of_now {E : Engine} {s : Span} {sites : List Surface.Site}
    {body : Surface.Expr} {S : Scope} {ty : Value} (hty : ty.now = .ok ty) :
    ((Surface.Expr.lambda s sites body).rules E).check S ty = checkLambda E s
    (body.toPart E) sites S ty := by
  simp only [Surface.Expr.rules, checked, hty]
  rfl

section Functions

variable {E : Engine} {movable : Cause → Prop}
  (hmovable : ∀ found, movable (.expectedFormer .pi found))

include hmovable

/-- The parameters of a function can be nested. -/
theorem checkLambda_matches (s : Span) (body : Surface.Expr)
    (parameters : List (Span × Surface.Site)) (S : Scope) {ty : Value} (hty : ty.now = .ok ty) :
    Checked.Matches movable (checkLambda E s (body.toPart E) (parameters.map Prod.snd) S ty)
      (((Surface.Expr.nestedLambda body parameters).rules E).check S ty) := by
  induction parameters generalizing S ty with
  | nil => exact .same _
  | cons p parameters ih =>
    obtain ⟨t, site⟩ := p
    rw [Surface.Expr.nestedLambda, check_lambda_of_now hty]
    simp only [List.map_cons, checkLambda]
    split
    · refine .bind_same fun r _ => .bind_same fun v _ => .bind_same fun codomain hcodomain => ?_
      have hnow := Value.now_of_now (Outcome.unrejected_eq_ok_iff.1 hcodomain)
      exact (ih r.2 hnow).bind fun _ => .same _
    · exact .rejectFormer E S s t .pi _ hmovable

/-- The first argument can be given on its own. -/
theorem applyTo_matches (s s' : Span) (a : Part) (arguments : List Part) (S : Scope) (f : Core)
    (ty : Value) :
    Checked.Matches movable (applyTo E s (a :: arguments) S f ty)
      (applyTo E s' [a] S f ty >>= fun r => applyTo E s arguments S r.1 r.2) := by
  simp only [applyTo, bind_assoc]
  refine .bind_same fun T _ => ?_
  split
  · simp only [bind_assoc, pure_bind]
    exact .same _
  · unfold Scope.rejectFormer
    rw [bind_assoc]
    exact .bind_same fun found _ => .moved (hmovable found) s s'

/-- The arguments of a function can be nested. -/
theorem synthesize_nestedApply_matches (s : Span) (arguments : List (Span × Surface.Expr))
    (f : Surface.Expr) (S : Scope) :
    Checked.Matches movable
      ((f.rules E).synthesize S >>= fun r =>
        applyTo E s (arguments.map fun a => a.2.toPart E) S r.1 r.2)
      (((Surface.Expr.nestedApply f arguments).rules E).synthesize S) := by
  induction arguments generalizing f with
  | nil =>
    have hpure : ((f.rules E).synthesize S >>= fun r => pure (r.1, r.2)) =
        (f.rules E).synthesize S := bind_pure _
    exact hpure.symm ▸ .same _
  | cons a arguments ih =>
    obtain ⟨t, a⟩ := a
    have hfirst := ih (.apply t f [a])
    simp only [Surface.Expr.rules, inferred, Surface.Expr.partsOfList, bind_assoc] at hfirst
    refine .trans ?_ hfirst
    exact .bind_same fun r _ => applyTo_matches hmovable s t (a.toPart E) _ S r.1 r.2

end Functions

end Rules

/-! ## The four forms -/

namespace Surface.Expr

variable {E : Engine}

theorem rules_lambda_matches (s : Span) (body : Expr) (p : Span × Site)
    (parameters : List (Span × Site)) :
    ((lambda s ((p :: parameters).map Prod.snd) body).rules E).SameButForPlace
      ((nestedLambda body (p :: parameters)).rules E) := by
  obtain ⟨t, site⟩ := p
  simp only [nestedLambda, rules]
  refine Rules.checked_matches (fun _ => True.intro) (fun S ty hty => ?_) (fun _ => rfl)
    fun _ => rfl
  rw [← Rules.check_lambda_of_now (s := t) hty]
  exact Rules.checkLambda_matches (fun _ => True.intro) s body ((t, site) :: parameters) S hty

theorem rules_quant_matches (s : Span) (q : Quantifier) (body : Expr) (b : Span × Site × Expr)
    (binders : List (Span × Site × Expr)) :
    ((quant s q ((b :: binders).map Prod.snd) body).rules E).SameButForPlace
      ((nestedQuant q body (b :: binders)).rules E) := by
  obtain ⟨t, site, ty⟩ := b
  simp only [nestedQuant, rules, partsOfBinders_eq, List.map_cons, List.map_nil, List.map_map,
    Function.comp_def]
  exact Rules.former_matches (fun _ => True.intro) fun c S =>
    Rules.telescope_cons_eq_nested body (site, ty.toPart E) binders S

theorem rules_arrow_matches (s s' s'' : Span) (A B : Expr) (rest : List Expr) :
    ((arrow s A (B :: rest)).rules E).SameButForPlace
    ((arrow s' A [arrow s'' B rest]).rules E) := by
  simp only [rules]
  exact Rules.former_matches (fun _ => True.intro) fun c S =>
    Rules.nondependent_eq_nested s'' A B rest S

/-- A nested application is the last application in it, and the grouped one has no other
parts. -/
theorem exists_nestedApply_eq (f : Expr) (a : Span × Expr) (arguments : List (Span × Expr)) :
    ∃ s g b, nestedApply f (a :: arguments) = .apply s g [b] ∧
      f.places ++ placesOfList ((a :: arguments).map Prod.snd) ⊆ g.places ++
        placesOfList [b] := by
  induction arguments generalizing f a with
  | nil => exact ⟨a.1, f, a.2, rfl, List.Subset.refl _⟩
  | cons b arguments ih =>
    obtain ⟨s, g, c, heq, hplaces⟩ := ih (.apply a.1 f [a.2]) b
    refine ⟨s, g, c, heq, List.Subset.trans ?_ hplaces⟩
    simp only [List.map_cons, places, placesOfList, List.append_nil, List.append_assoc,
      List.cons_append]
    exact List.subset_cons_self _ _

/-- An application finds its type, and the other readings follow from that. -/
theorem rules_apply (s : Span) (f : Expr) (arguments : List Expr) :
    (apply s f arguments).rules E = Rules.inferred E s
    ((apply s f arguments).rules E).synthesize := by
  simp only [rules, Rules.inferred]

section Apply

variable (f : Expr) (a : Span × Expr) (arguments : List (Span × Expr))

theorem rules_nestedApply :
    (nestedApply f (a :: arguments)).rules E =
      Rules.inferred E (nestedApply f (a :: arguments)).span
        ((nestedApply f (a :: arguments)).rules E).synthesize := by
  obtain ⟨s, g, b, heq, -⟩ := exists_nestedApply_eq f a arguments
  rw [heq]
  exact rules_apply s g [b]

/-- The grouped and the nested application find their types alike. -/
theorem synthesize_apply_matches {movable : Cause → Prop}
    (hmovable : ∀ found, movable (.expectedFormer .pi found)) (s : Span) (S : Scope) :
    Checked.Matches movable (((apply s f ((a :: arguments).map Prod.snd)).rules E).synthesize S)
      (((nestedApply f (a :: arguments)).rules E).synthesize S) := by
  simp only [rules, Rules.inferred, partsOfList_eq, List.map_map]
  exact Rules.synthesize_nestedApply_matches hmovable s (a :: arguments) f S

theorem check_apply_matches (s : Span) (S : Scope) (ty : Value) :
    (((apply s f ((a :: arguments).map Prod.snd)).rules E).check S ty).SameButForPlace
      (((nestedApply f (a :: arguments)).rules E).check S ty) := by
  rw [rules_nestedApply, rules_apply]
  exact Rules.checkFound_matches (.inr fun _ => True.intro)
    (synthesize_apply_matches f a arguments (fun _ => True.intro) s S) ty

/-- At the same place, the two are also read alike as types. -/
theorem rules_apply_matches :
    ((apply (nestedApply f (a :: arguments)).span f ((a :: arguments).map Prod.snd)).rules
      E).Matches Cause.NotMismatch ((nestedApply f (a :: arguments)).rules E) := by
  rw [rules_nestedApply, rules_apply]
  exact Rules.inferred_matches (fun e f h => h e f rfl) fun S =>
    synthesize_apply_matches f a arguments (fun _ => nofun) _ S

end Apply

/-- The place of an application is of no account, if no part of it has the same place. -/
theorem rules_apply_moved {s s' : Span} {f : Expr} {arguments : List Expr}
    (hs : s ∉ f.places ++ placesOfList arguments)
    (hs' : s' ∉ f.places ++ placesOfList arguments) :
    (apply s' f arguments).rules E = ((apply s f arguments).rules E).relocate
    (Equiv.swap s s') := by
  have hfixed := Span.swap_eq_self hs hs'
  rw [placesOfList_eq] at hfixed
  simp only [List.mem_append, List.mem_flatMap] at hfixed
  have hmoved : (apply s f arguments).relocate (Equiv.swap s s') = apply s' f arguments := by
    rw [relocate, Equiv.swap_apply_left, relocate_eq_self fun u hu => hfixed u (.inl hu),
      relocateList_eq_self fun b hb => relocate_eq_self fun u hu => hfixed u (.inr ⟨b, hb, hu⟩)]
  rw [← hmoved]
  refine rules_relocate (Equiv.swap s s').injective fun u hu => ?_
  simp only [todos, todosOfList_eq, List.mem_append, List.mem_flatMap] at hu
  obtain hu | ⟨b, hb, hu⟩ := hu
  · exact hfixed u (.inl (f.todos_subset_places hu))
  · exact hfixed u (.inr ⟨b, hb, b.todos_subset_places hu⟩)

/-- The grouped and the nested application are read alike as types, if no part of them has the
place of one of the two. -/
theorem isType_apply_matches {s : Span} {f : Expr} {a : Span × Expr}
    {arguments : List (Span × Expr)}
    (hs : s ∉ f.places ++ placesOfList ((a :: arguments).map Prod.snd))
    (hspan : (nestedApply f (a :: arguments)).span ∉
      f.places ++ placesOfList ((a :: arguments).map Prod.snd)) (S : Scope) :
    (((apply s f ((a :: arguments).map Prod.snd)).rules E).isType S).SameButForPlace
      (((nestedApply f (a :: arguments)).rules E).isType S) := by
  have hmatches := (rules_apply_matches (E := E) f a arguments).isType S
  rw [rules_apply_moved hs hspan] at hmatches
  exact (Checked.Matches.relocateError _ _).trans (hmatches.mono fun _ _ => True.intro)

/-- In a text, no part of a nested application has the place of the whole. -/
theorem Written.nestedApply_span_not_mem {f : Expr} {a : Span × Expr}
    {arguments : List (Span × Expr)} (h : (nestedApply f (a :: arguments)).Written) :
    (nestedApply f (a :: arguments)).span ∉
      f.places ++ placesOfList ((a :: arguments).map Prod.snd) := by
  obtain ⟨s, g, b, heq, hplaces⟩ := exists_nestedApply_eq f a arguments
  rw [heq] at h ⊢
  exact fun hmem => h.span_not_mem (hplaces hmem)

/-- Grouped forms mean their nested spelling. A function with several parameters, a dependent
type with several binders, an arrow with several domains and an application to several arguments
are elaborated in every mode to the same term and the same type as their nested spelling, or are
rejected for the same cause, whatever the places of these forms.

There is one thing to mind. If an application is read as a type, then a mismatch of types at its
own place means that it is not a type. So the two applications must have one place, or places
that no part of them has; in a text they always have. -/
theorem grouped_means_nested (E : Engine) :
    (∀ s body p parameters,
      ((lambda s ((p :: parameters).map Prod.snd) body).rules E).SameButForPlace
        ((nestedLambda body (p :: parameters)).rules E)) ∧
    (∀ s q body b binders,
      ((quant s q ((b :: binders).map Prod.snd) body).rules E).SameButForPlace
        ((nestedQuant q body (b :: binders)).rules E)) ∧
    (∀ s s' s'' A B rest, ((arrow s A (B :: rest)).rules E).SameButForPlace
      ((arrow s' A [arrow s'' B rest]).rules E)) ∧
    ∀ s f a arguments S,
      (((apply s f ((a :: arguments).map Prod.snd)).rules E).synthesize S).SameButForPlace
        (((nestedApply f (a :: arguments)).rules E).synthesize S) ∧
      (∀ ty, (((apply s f ((a :: arguments).map Prod.snd)).rules E).check S ty).SameButForPlace
        (((nestedApply f (a :: arguments)).rules E).check S ty)) ∧
      (s = (nestedApply f (a :: arguments)).span ∨
          s ∉ f.places ++ placesOfList ((a :: arguments).map Prod.snd) ∧
          (nestedApply f (a :: arguments)).span ∉
            f.places ++ placesOfList ((a :: arguments).map Prod.snd) →
        (((apply s f ((a :: arguments).map Prod.snd)).rules E).isType S).SameButForPlace
          (((nestedApply f (a :: arguments)).rules E).isType S)) := by
  refine ⟨rules_lambda_matches, rules_quant_matches, rules_arrow_matches, ?_⟩
  intro s f a arguments S
  refine ⟨?_, check_apply_matches f a arguments s S, ?_⟩
  · exact synthesize_apply_matches f a arguments (fun _ => True.intro) s S
  · rintro (rfl | ⟨hs, hspan⟩)
    · exact ((rules_apply_matches f a arguments).isType S).mono fun _ _ => True.intro
    · exact isType_apply_matches hs hspan S

/-- The application of `f` to `a` and `b` as in the text ` (f a  b)`. -/
def groupedFab : Expr := .apply ⟨1, 9⟩ (.var ⟨2, 3⟩ "f") [.var ⟨4, 5⟩ "a", .var ⟨7, 8⟩ "b"]

/-- The same application as in the text `((f a) b)`. -/
def nestedFab : Expr := .apply ⟨0, 9⟩ (.apply ⟨1, 6⟩ (.var ⟨2, 3⟩ "f") [.var ⟨4, 5⟩ "a"])
  [.var ⟨7, 8⟩ "b"]

theorem groupedFab_written : groupedFab.Written := by
  have hlex : lex " (f a  b)" =
      .ok [⟨.blank, 0, " "⟩, ⟨.opening, 1, "("⟩, ⟨.name, 2, "f"⟩, ⟨.blank, 3, " "⟩,
        ⟨.name, 4, "a"⟩, ⟨.blank, 5, "  "⟩, ⟨.name, 7, "b"⟩, ⟨.closing, 8, ")"⟩] := by
          decide +kernel
  exact .of_lexemes 9 hlex rfl

theorem nestedFab_written : nestedFab.Written := by
  have hlex : lex "((f a) b)" =
      .ok [⟨.opening, 0, "("⟩, ⟨.opening, 1, "("⟩, ⟨.name, 2, "f"⟩, ⟨.blank, 3, " "⟩,
        ⟨.name, 4, "a"⟩, ⟨.closing, 5, ")"⟩, ⟨.blank, 6, " "⟩, ⟨.name, 7, "b"⟩,
        ⟨.closing, 8, ")"⟩] := by decide +kernel
  exact .of_lexemes 9 hlex rfl

/-- A context with a family `f` of types, which depends on two numbers, and the numbers `a` and
`b`. -/
def familyContext : Context :=
  ((Context.empty.extendFree "f" (.arrow "x" .nat (.arrow "y" .nat .univ))).extendFree "a"
    .nat).extendFree "b" .nat

theorem grouped_means_nested_fab :
    groupedFab.Written ∧ nestedFab.Written ∧
    familyContext.isType ⟨.onDemand, 4⟩ groupedFab =
      .ok (.apply (.apply (.var "f") (.var "a")) (.var "b")) ∧
    (familyContext.isType ⟨.onDemand, 4⟩ groupedFab).SameButForPlace
      (familyContext.isType ⟨.onDemand, 4⟩ nestedFab) := by
  refine ⟨groupedFab_written, nestedFab_written, rfl, ?_⟩
  have happly := (grouped_means_nested ⟨.onDemand, 4⟩).2.2.2 ⟨1, 9⟩ (.var ⟨2, 3⟩ "f")
    (⟨1, 6⟩, .var ⟨4, 5⟩ "a") [(⟨0, 9⟩, .var ⟨7, 8⟩ "b")] (.ofContext familyContext)
  have hnested : (nestedApply (.var ⟨2, 3⟩ "f")
      ((⟨1, 6⟩, .var ⟨4, 5⟩ "a") :: [(⟨0, 9⟩, .var ⟨7, 8⟩ "b")])).Written := nestedFab_written
  exact happly.2.2 (.inr ⟨groupedFab_written.span_not_mem, hnested.nestedApply_span_not_mem⟩)

/-- The application of `f` to `a` and `'b` as in the text `(f a 'b)` is rejected as a type for a
mismatch of the last argument. A nested application to the same arguments that has the place of
the last one, as no text has, takes the mismatch for its own and is rejected for another
cause. -/
theorem argument_at_place_of_whole :
    familyContext.isType ⟨.onDemand, 4⟩
        (.apply ⟨0, 8⟩ (.var ⟨1, 2⟩ "f") [.var ⟨3, 4⟩ "a", .quote ⟨5, 7⟩ "b"]) =
      reject ⟨5, 7⟩ (.typeMismatch .nat (.const .atom)) ∧
    familyContext.isType ⟨.onDemand, 4⟩
        (nestedApply (.var ⟨1, 2⟩ "f")
          [(⟨0, 5⟩, .var ⟨3, 4⟩ "a"), (⟨5, 7⟩, .quote ⟨5, 7⟩ "b")]) =
      reject ⟨5, 7⟩ (.notAType (.const .atom)) :=
  ⟨rfl, rfl⟩

end Surface.Expr

end PieChecker
