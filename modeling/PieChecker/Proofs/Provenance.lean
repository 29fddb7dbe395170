import Mathlib.Data.Fintype.EquivFin
import Mathlib.Logic.Equiv.Basic
import PieChecker.Proofs.Reachable
import PieChecker.Proofs.Relocation

set_option autoImplicit false

/-!
# Where rejections and unfinished parts come from

A rejection is at a place of the form that is rejected, and an unfinished part that is reported
is at the place of an unfinished part of some form of the session.

Both are shown by moving places. A span that is no place of a form can be exchanged with a new
one, and the form stays as it is. Then so does its rejection, which is therefore at neither of
the two spans. An unfinished part that is reported may come from an earlier form, by way of
values, definitions and normal forms. That no span gets into these but the places of the forms
is an invariant of contexts.
-/

namespace PieChecker

instance : Infinite Span :=
  Infinite.of_injective (Span.mk 0) fun _ _ h => (Span.mk.inj h).2

/-- There are always more spans. -/
theorem Span.exists_not_mem (l : List Span) : ∃ s, s ∉ l := by
  obtain ⟨s, hs⟩ := Infinite.exists_notMem_finset l.toFinset
  exact ⟨s, by simpa using hs⟩

/-- Exchanging two spans that are not in a list changes nothing in it. -/
theorem Span.swap_eq_self {l : List Span} {s t : Span} (hs : s ∉ l) (ht : t ∉ l) :
    ∀ u ∈ l, Equiv.swap s t u = u := by
  intro u hu
  exact Equiv.swap_apply_of_ne_of_ne (fun h => hs (h ▸ hu)) fun h => ht (h ▸ hu)

namespace Context

variable {E : Engine} {Γ : Context} {form : Surface.Form}

/-! ## Rejections -/

/-- A rejection is at a place of the form. -/
theorem span_mem_places_of_rejected {e : TypeError}
    (h : Γ.process E form = .error (.rejected e)) :
    e.span ∈ form.places := by
  by_contra hspan
  obtain ⟨s, hs⟩ := Span.exists_not_mem (e.span :: form.places)
  have hne := List.ne_of_not_mem_cons hs
  have hfixed := Span.swap_eq_self hspan (List.not_mem_of_not_mem_cons hs)
  have hmoved := process_relocate (E := E) (Equiv.swap e.span s).injective
    (fun u hu => hfixed u (form.todos_subset_places hu)) Γ
  rw [Surface.Form.relocate_eq_self hfixed, h] at hmoved
  have herror : e = e.relocate (Equiv.swap e.span s) :=
    Interrupt.rejected.inj (Except.error.inj hmoved)
  have hsame : e.span = Equiv.swap e.span s e.span := congrArg TypeError.span herror
  rw [Equiv.swap_apply_left] at hsame
  exact hne hsame.symm

end Context

/-! ## Unfinished parts of terms -/

/-- The comparison of a run with itself, if unfinished parts are at the given places only. -/
def Comparison.fromPlaces (strategy : Strategy) (Q : Span → Prop) : Comparison :=
  { Comparison.upToNames strategy with span := fun s t => s = t ∧ Q s }

namespace Worlds

variable (strategy : Strategy) (Q : Span → Prop)

theorem comparable_fromPlaces (n m : Nat) : Comparable (.fromPlaces strategy Q) n m where
  fuels := Comparison.fuels_upToNames strategy n m
  binder _ := True.intro
  span := by
    rintro s _ t _ ⟨rfl, -⟩ ⟨rfl, -⟩
    exact Iff.rfl

/-- The run may be in any consistent world. -/
def fromPlaces : Worlds (.fromPlaces strategy Q) where
  admits := World.Consistent
  var_push := (Worlds.consistent strategy).var_push
  biunique := (Worlds.consistent strategy).biunique
  fresh := (Worlds.consistent strategy).fresh

end Worlds

/-- A term that is related to itself has no unfinished parts but at the given places. -/
theorem Core.Related.holes {strategy : Strategy} {Q : Span → Prop} {σ : NameRelation}
    {t t' : Core} (h : Core.Related (.fromPlaces strategy Q) σ t t') :
    ∀ hole ∈ t.holes, Q hole.1 := by
  induction h with
  | var | const | quote => nofun
  | todo hs => exact List.forall_mem_singleton.2 hs.2
  | quant q hx _ _ ihb ihf => exact List.forall_mem_append.2 ⟨ihb, ihf⟩
  | lam hx _ ih => exact ih
  | unary o _ ih => exact ih
  | binary o _ _ iha ihb => exact List.forall_mem_append.2 ⟨iha, ihb⟩
  | ternary o _ _ _ iha ihb ihc =>
    exact List.forall_mem_append.2 ⟨List.forall_mem_append.2 ⟨iha, ihb⟩, ihc⟩
  | quaternary o _ _ _ _ iha ihb ihc ihd =>
    simp only [Core.holes, List.forall_mem_append]
    exact ⟨⟨⟨iha, ihb⟩, ihc⟩, ihd⟩
  | indVec _ _ _ _ _ ihl iht ihm ihb ihs =>
    simp only [Core.holes, List.forall_mem_append]
    exact ⟨⟨⟨⟨ihl, iht⟩, ihm⟩, ihb⟩, ihs⟩

namespace Context

open Likeness

variable {strategy : Strategy} {Q : Span → Prop} {Γ Γ' : Context}
  {form : Surface.Form} {n : Nat}

namespace Within

variable {β : NameRelation}

theorem contexts_fromPlaces (h : Γ.Within (.fromPlaces strategy Q) β) :
    (Worlds.fromPlaces strategy Q).Contexts (Γ.world β) Γ Γ :=
  h.contexts_of fun hW => hW

/-- An expression at the given places is read in the same way by two runs in one context. -/
theorem readings_fromPlaces (h : Γ.Within (.fromPlaces strategy Q) β) {e : Surface.Expr}
    (he : ∀ s ∈ e.places, Q s) (n : Nat) :
    (Worlds.fromPlaces strategy Q).Readings (Γ.world β) (.ofContext Γ) (.ofContext Γ)
      (e.rules ⟨strategy, n⟩) (e.rules ⟨strategy, n⟩) := by
  have hself : Surface.Expr.Renamed (Comparison.fromPlaces strategy Q).span
      (fun _ _ => True) Eq e e :=
    .refl (fun _ => True.intro) (fun s hs => ⟨rfl, he s hs⟩) fun _ => rfl
  have hscopes := h.scopes_of (𝒲 := Worlds.fromPlaces strategy Q) (fun hW => hW) fun _ =>
    True.intro
  exact (Worlds.renamings (Worlds.comparable_fromPlaces strategy Q n n) hself fun _ _ _ =>
    True.intro).readings (hscopes.mono fun _ _ hab => hab.1)

/-- The value of a term is as the term is. -/
theorem evaluate_fromPlaces (h : Γ.Within (.fromPlaces strategy Q) β) {t : Core} {v : Value}
    (ht : Core.Related (.fromPlaces strategy Q) Γ.inScope t t)
    (hv : Γ.evaluate ⟨strategy, n⟩ t = .ok v) :
    (renamed (.fromPlaces strategy Q) β).value v v := by
  have hcomparable := Worlds.comparable_fromPlaces strategy Q n n
  exact (h.contexts_fromPlaces.evaluate hcomparable ht).of_eq_ok hv hv

end Within

/-- What terms report comes from the given places, if it does so for each. -/
theorem holesOf_fromPlaces {terms : List Core} {σ : NameRelation}
    (h : ∀ t ∈ terms, Core.Related (.fromPlaces strategy Q) σ t t) : ∀ hole ∈ holesOf terms,
    Q hole.span := by
  intro hole hhole
  obtain ⟨t, ht, hmem⟩ := List.mem_flatMap.1 hhole
  obtain ⟨p, hp, rfl⟩ := List.mem_map.1 hmem
  exact (h t ht).holes p hp

/-- What one form does: if its places are among the given ones, then so are those of what it
reports, and a context without other unfinished parts is still one without others. -/
theorem Scoped.process (hΓ : Γ.Scoped (.fromPlaces strategy Q)) (hform : ∀ s ∈ form.places, Q s)
    {p : Processed} (h : Γ.process ⟨strategy, n⟩ form = .ok (p, Γ')) :
    Γ'.Scoped (.fromPlaces strategy Q) ∧ ∀ hole ∈ p.holes, Q hole.span := by
  cases form with
  | claim site e =>
    rw [Context.process] at h
    split at h
    · cases h
    obtain ⟨t, ht, h⟩ := bind_eq_ok_iff.1 h
    obtain ⟨v, hv, h⟩ := bind_eq_ok_iff.1 h
    cases h
    obtain ⟨-, he⟩ := List.forall_mem_cons.1 hform
    have ht := (hΓ.readings_fromPlaces he n).isType.of_eq_ok ht ht
    have hv := hΓ.evaluate_fromPlaces ht (Outcome.unrejected_eq_ok_iff.1 hv)
    exact ⟨hΓ.claim site.name hv, holesOf_fromPlaces (List.forall_mem_singleton.2 ht)⟩
  | define site e =>
    rw [Context.process] at h
    split at h
    · rename_i ty hclaim
      obtain ⟨t, ht, h⟩ := bind_eq_ok_iff.1 h
      obtain ⟨v, hv, h⟩ := bind_eq_ok_iff.1 h
      cases h
      obtain ⟨before, after, hsplit, _⟩ := List.lookup_eq_some_iff.1 hclaim
      have hty := hΓ.types (x := site.name) (b := .claim ty) (by simp [hsplit])
      obtain ⟨-, he⟩ := List.forall_mem_cons.1 hform
      have ht := ((hΓ.readings_fromPlaces he n).check hty).of_eq_ok ht ht
      have hv := hΓ.evaluate_fromPlaces ht (Outcome.unrejected_eq_ok_iff.1 hv)
      exact ⟨hΓ.define site.name hty hv, holesOf_fromPlaces (List.forall_mem_singleton.2 ht)⟩
    · cases h
    · cases h
  | checkSame ty left right =>
    rw [Context.process] at h
    obtain ⟨t, ht, h⟩ := bind_eq_ok_iff.1 h
    obtain ⟨value, hvalue, h⟩ := bind_eq_ok_iff.1 h
    obtain ⟨l, hl, h⟩ := bind_eq_ok_iff.1 h
    obtain ⟨r, hr, h⟩ := bind_eq_ok_iff.1 h
    obtain ⟨_, _, h⟩ := bind_eq_ok_iff.1 h
    obtain ⟨_, _, h⟩ := bind_eq_ok_iff.1 h
    obtain ⟨_, _, h⟩ := bind_eq_ok_iff.1 h
    cases h
    simp only [Surface.Form.places, List.forall_mem_append] at hform
    obtain ⟨⟨hty, hleft⟩, hright⟩ := hform
    have ht := (hΓ.readings_fromPlaces hty n).isType.of_eq_ok ht ht
    have hvalue := hΓ.evaluate_fromPlaces ht (Outcome.unrejected_eq_ok_iff.1 hvalue)
    have hl := ((hΓ.readings_fromPlaces hleft n).check hvalue).of_eq_ok hl hl
    have hr := ((hΓ.readings_fromPlaces hright n).check hvalue).of_eq_ok hr hr
    have hterms : ∀ u ∈ [t, l, r], Core.Related (.fromPlaces strategy Q) Γ.inScope u u := by
      simp only [List.mem_cons, List.not_mem_nil, or_false, forall_eq_or_imp, forall_eq]
      exact ⟨ht, hl, hr⟩
    exact ⟨hΓ, holesOf_fromPlaces hterms⟩
  | expression e =>
    rw [Context.process] at h
    obtain ⟨u, hu, h⟩ := bind_eq_ok_iff.1 h
    cases h
    rw [normalize] at hu
    obtain ⟨⟨t, ty⟩, hfound, hu⟩ := bind_eq_ok_iff.1 hu
    obtain ⟨v, hv, hu⟩ := bind_eq_ok_iff.1 (Outcome.unrejected_eq_ok_iff.1 hu)
    obtain ⟨T, hT, hu⟩ := bind_eq_ok_iff.1 hu
    obtain ⟨w, hw, ⟨⟩⟩ := bind_eq_ok_iff.1 hu
    obtain ⟨ht, hty⟩ := (hΓ.readings_fromPlaces hform n).synthesize.of_eq_ok hfound hfound
    have hv := hΓ.evaluate_fromPlaces ht hv
    have hcomparable := Worlds.comparable_fromPlaces strategy Q n n
    have hT := (hΓ.contexts_fromPlaces.readBackType hcomparable hty).of_eq_ok hT hT
    have hw := (hΓ.contexts_fromPlaces.readBack hcomparable hty hv).of_eq_ok hw hw
    exact ⟨hΓ, holesOf_fromPlaces (List.forall_mem_singleton.2 (.binary .the hT hw))⟩

/-- So it is with all forms of a program. -/
theorem Scoped.processAll (hΓ : Γ.Scoped (.fromPlaces strategy Q)) {forms : List Surface.Form}
    (hforms : ∀ form ∈ forms, ∀ s ∈ form.places, Q s) :
    ∀ p ∈ (Γ.processAll ⟨strategy, n⟩ forms).processed, ∀ hole ∈ p.holes, Q hole.span := by
  induction forms generalizing Γ with
  | nil => exact List.forall_mem_nil _
  | cons form forms ih =>
    obtain ⟨hform, hforms⟩ := List.forall_mem_cons.1 hforms
    rw [Context.processAll]
    split
    case h_1 p Γ' h =>
      obtain ⟨hΓ', hp⟩ := hΓ.process hform h
      exact List.forall_mem_cons.2 ⟨hp, ih hΓ' hforms⟩
    case h_2 => exact List.forall_mem_nil _

/-! ## Unfinished parts of programs -/

section Programs

variable {E : Engine} {forms : List Surface.Form} {p : Processed} {hole : Hole}

theorem mem_places_of_mem_holes (hp : p ∈ (Context.empty.processAll E forms).processed)
    (hhole : hole ∈ p.holes) :
    ∃ form ∈ forms, hole.span ∈ form.places :=
  Scoped.processAll (Q := fun s => ∃ form ∈ forms, s ∈ form.places) (scoped_empty _)
    (fun form hform _ hs => ⟨form, hform, hs⟩) p hp hole hhole

/-- What a program reports as unfinished are unfinished parts of its forms. -/
theorem mem_todos_of_mem_holes (hp : p ∈ (Context.empty.processAll E forms).processed)
    (hhole : hole ∈ p.holes) :
    ∃ form ∈ forms, hole.span ∈ form.todos := by
  by_contra hnot
  have hspan : hole.span ∉ forms.flatMap Surface.Form.todos :=
    fun hmem => hnot (List.mem_flatMap.1 hmem)
  -- The span is exchanged with a new one. The program still reports it, but it is no place any
  -- more.
  obtain ⟨s, hs⟩ := Span.exists_not_mem (forms.flatMap Surface.Form.places)
  have hstodos : s ∉ forms.flatMap Surface.Form.todos := by
    intro hmem
    obtain ⟨form, hform, hmem⟩ := List.mem_flatMap.1 hmem
    exact hs (List.mem_flatMap.2 ⟨form, hform, form.todos_subset_places hmem⟩)
  have hfixed := Span.swap_eq_self hspan hstodos
  have hmoved := processAll_relocate (E := E) (Equiv.swap hole.span s).injective
    (fun form hform u hu => hfixed u (List.mem_flatMap.2 ⟨form, hform, hu⟩)) .empty
  have hreported :
      p ∈ ((Context.empty.processAll E forms).relocate (Equiv.swap hole.span s)).processed := hp
  rw [← hmoved] at hreported
  obtain ⟨moved, hmem, hplace⟩ := mem_places_of_mem_holes hreported hhole
  obtain ⟨form, hform, rfl⟩ := List.mem_map.1 hmem
  rw [Surface.Form.places_relocate] at hplace
  obtain ⟨u, hu, hswap⟩ := List.mem_map.1 hplace
  obtain rfl : u = s := by rwa [Equiv.swap_apply_eq_iff, Equiv.swap_apply_left] at hswap
  exact hs (List.mem_flatMap.2 ⟨form, hform, hu⟩)

end Programs

end Context

end PieChecker
