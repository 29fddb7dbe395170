import PieChecker.Core.Alpha
import PieChecker.Proofs.Simulation.Likeness

set_option autoImplicit false

/-!
# Related terms and equality up to bound names

Related terms whose free names correspond to themselves are equal up to bound names. More
generally, whether two terms are equal up to bound names can be seen on any two terms that they
are related to, as long as the correspondence of free names confuses no two of them. And a name
that occurs free in a term corresponds to some name.
-/

namespace PieChecker

namespace Core

/-- Two variables below one more binder on each side. -/
theorem sameVariable_cons (ls rs : List String) (x y a b : String) :
    sameVariable (x :: ls) (y :: rs) a b =
      if a = x then decide (b = y) else if b = y then false else sameVariable ls rs a b := by
  rw [sameVariable, sameVariable, List.idxOf?_cons, List.idxOf?_cons]
  by_cases ha : a = x
  · subst ha
    by_cases hb : b = y
    · subst hb
      simp
    · have hy : (y == b) = false := beq_false_of_ne (Ne.symm hb)
      cases List.idxOf? b rs <;> simp [hy, hb]
  · have hx : (x == a) = false := beq_false_of_ne (Ne.symm ha)
    by_cases hb : b = y
    · subst hb
      cases List.idxOf? a ls <;> simp [hx, ha]
    · have hy : (y == b) = false := beq_false_of_ne (Ne.symm hb)
      cases List.idxOf? a ls <;> cases List.idxOf? b rs <;> simp [hx, hy, ha, hb]

/-- Proofs of `Absurd` are equal whatever they are; everything else with two operands is
compared operand by operand. -/
theorem alphaEquivalentUnder_binary (ls rs : List String) (o o' : Core.Binary)
    (a a' b b' : Core) :
    alphaEquivalentUnder ls rs (binary o a b) (binary o' a' b') =
      if o = .the ∧ a = absurd ∧ o' = .the ∧ a' = absurd then true
      else o = o' && alphaEquivalentUnder ls rs a a' && alphaEquivalentUnder ls rs b b' := by
  split
  · rename_i h
    obtain ⟨rfl, rfl, rfl, rfl⟩ := h
    rw [alphaEquivalentUnder]
  · rename_i h
    rw [alphaEquivalentUnder]
    exact fun ho ha ho' ha' => h ⟨ho, ha, ho', ha'⟩

namespace Related

variable {K : Comparison}

/-- A larger correspondence of free names relates no fewer terms. -/
theorem mono {σ τ : NameRelation} (hσ : ∀ a b, σ a b → τ a b) {t t' : Core}
    (h : Related K σ t t') :
    Related K τ t t' := by
  have hpush : ∀ {σ τ : NameRelation} (x y : String), (∀ a b, σ a b → τ a b) →
      ∀ a b, σ.push x y a b → τ.push x y a b := by
    rintro σ τ x y hσ a b (⟨ha, hb⟩ | ⟨ha, hb, hab⟩)
    · exact Or.inl ⟨ha, hb⟩
    · exact Or.inr ⟨ha, hb, hσ a b hab⟩
  induction h generalizing τ with
  | var h => exact .var (hσ _ _ h)
  | const c => exact .const c
  | quote a => exact .quote a
  | todo hs _ ih => exact .todo hs (ih hσ)
  | quant q hx _ _ ihb ihf => exact .quant q hx (ihb hσ) (ihf (hpush _ _ hσ))
  | lam hx _ ih => exact .lam hx (ih (hpush _ _ hσ))
  | unary o _ ih => exact .unary o (ih hσ)
  | binary o _ _ iha ihb => exact .binary o (iha hσ) (ihb hσ)
  | ternary o _ _ _ iha ihb ihc => exact .ternary o (iha hσ) (ihb hσ) (ihc hσ)
  | quaternary o _ _ _ _ iha ihb ihc ihd =>
    exact .quaternary o (iha hσ) (ihb hσ) (ihc hσ) (ihd hσ)
  | indVec _ _ _ _ _ ihl iht ihm ihb ihs =>
    exact .indVec (ihl hσ) (iht hσ) (ihm hσ) (ihb hσ) (ihs hσ)

/-- A term is related to itself if the names that occur free in it correspond to themselves. -/
theorem refl (hbinder : ∀ x, K.binder x x) (hspan : ∀ s, K.span s s)
    {σ : NameRelation} {t : Core} (h : ∀ y, t.mentions y = true → σ y y) : Related K σ t t := by
  have hpush : ∀ {σ : NameRelation} (x : String) (t : Core),
      (∀ y, (x ≠ y && t.mentions y) = true → σ y y) → ∀ y, t.mentions y = true →
      σ.push x x y y := by
    intro σ x t hσ y hy
    by_cases hxy : y = x
    · exact Or.inl ⟨hxy, hxy⟩
    · exact Or.inr ⟨hxy, hxy, hσ y (by simp [Ne.symm hxy, hy])⟩
  induction t generalizing σ with
  | var x => exact .var (h x (by simp [mentions]))
  | const c => exact .const c
  | quote a => exact .quote a
  | todo s ty ih => exact .todo (hspan s) (ih h)
  | quant q x base family ihb ihf =>
    refine .quant q (hbinder x) (ihb fun y hy => h y (by simp [mentions, hy]))
      (ihf (hpush x family fun y hy => ?_))
    exact h y (by rw [mentions, hy, Bool.or_true])
  | lam x body ih => exact .lam (hbinder x) (ih (hpush x body h))
  | unary o a ih => exact .unary o (ih h)
  | binary o a b iha ihb =>
    exact .binary o (iha fun y hy => h y (by simp [mentions, hy]))
      (ihb fun y hy => h y (by simp [mentions, hy]))
  | ternary o a b c iha ihb ihc =>
    exact .ternary o (iha fun y hy => h y (by simp [mentions, hy]))
      (ihb fun y hy => h y (by simp [mentions, hy]))
      (ihc fun y hy => h y (by simp [mentions, hy]))
  | quaternary o a b c d iha ihb ihc ihd =>
    exact .quaternary o (iha fun y hy => h y (by simp [mentions, hy]))
      (ihb fun y hy => h y (by simp [mentions, hy]))
      (ihc fun y hy => h y (by simp [mentions, hy]))
      (ihd fun y hy => h y (by simp [mentions, hy]))
  | indVec l t m b s ihl iht ihm ihb ihs =>
    exact .indVec (ihl fun y hy => h y (by simp [mentions, hy]))
      (iht fun y hy => h y (by simp [mentions, hy]))
      (ihm fun y hy => h y (by simp [mentions, hy]))
      (ihb fun y hy => h y (by simp [mentions, hy]))
      (ihs fun y hy => h y (by simp [mentions, hy]))

/-- A name that occurs free in a term corresponds to some name. -/
theorem of_mentions {σ : NameRelation} {t t' : Core} (h : Related K σ t t') {y : String}
    (hy : t.mentions y = true) : ∃ z, σ y z := by
  induction h with
  | @var σ x z h =>
    obtain rfl : x = y := by simpa [mentions] using hy
    exact ⟨z, h⟩
  | const c => simp [mentions] at hy
  | quote a => simp [mentions] at hy
  | todo _ _ ih => exact ih hy
  | @quant σ q x z _ _ _ _ hx _ _ ihb ihf =>
    rcases (by simpa [mentions] using hy : _ ∨ _) with hy | ⟨hxy, hy⟩
    · exact ihb hy
    · obtain ⟨w, ⟨rfl, _⟩ | ⟨_, _, hw⟩⟩ := ihf hy
      · exact (hxy rfl).elim
      · exact ⟨w, hw⟩
  | @lam σ x z _ _ hx _ ih =>
    obtain ⟨hxy, hy⟩ : x ≠ y ∧ _ := by simpa [mentions] using hy
    obtain ⟨w, ⟨rfl, _⟩ | ⟨_, _, hw⟩⟩ := ih hy
    · exact (hxy rfl).elim
    · exact ⟨w, hw⟩
  | unary _ _ ih => exact ih hy
  | binary o _ _ iha ihb =>
    rcases (by simpa [mentions] using hy : _ ∨ _) with hy | hy
    · exact iha hy
    · exact ihb hy
  | ternary o _ _ _ iha ihb ihc =>
    rcases (by simpa [mentions] using hy : (_ ∨ _) ∨ _) with (hy | hy) | hy
    · exact iha hy
    · exact ihb hy
    · exact ihc hy
  | quaternary o _ _ _ _ iha ihb ihc ihd =>
    rcases (by simpa [mentions] using hy : ((_ ∨ _) ∨ _) ∨ _) with ((hy | hy) | hy) | hy
    · exact iha hy
    · exact ihb hy
    · exact ihc hy
    · exact ihd hy
  | indVec _ _ _ _ _ ihl iht ihm ihb ihs =>
    rcases (by simpa [mentions] using hy : (((_ ∨ _) ∨ _) ∨ _) ∨
      _) with (((hy | hy) | hy) | hy) | hy
    · exact ihl hy
    · exact iht hy
    · exact ihm hy
    · exact ihb hy
    · exact ihs hy

/-- Related terms are equal up to bound names if their free names are the same variables. -/
theorem alphaEquivalentUnder_eq_true (hspan : ∀ s t, K.span s t → s = t) {σ : NameRelation}
    {t t' : Core} (h : Related K σ t t') {ls rs : List String}
    (hσ : ∀ a b, σ a b → sameVariable ls rs a b = true) :
    alphaEquivalentUnder ls rs t t' = true := by
  have hpush : ∀ {σ : NameRelation} {ls rs : List String} (x y : String),
      (∀ a b, σ a b → sameVariable ls rs a b = true) →
      ∀ a b, σ.push x y a b → sameVariable (x :: ls) (y :: rs) a b = true := by
    rintro σ ls rs x y hσ a b (⟨rfl, rfl⟩ | ⟨ha, hb, hab⟩)
    · simp [sameVariable_cons]
    · simp [sameVariable_cons, ha, hb, hσ a b hab]
  induction h generalizing ls rs with
  | var h => simp [alphaEquivalentUnder, hσ _ _ h]
  | const c => simp [alphaEquivalentUnder]
  | quote a => simp [alphaEquivalentUnder]
  | todo hs _ ih => simp [alphaEquivalentUnder, hspan _ _ hs, ih hσ]
  | quant q _ _ _ ihb ihf => simp [alphaEquivalentUnder, ihb hσ, ihf (hpush _ _ hσ)]
  | lam _ _ ih => simp [alphaEquivalentUnder, ih (hpush _ _ hσ)]
  | unary o _ ih => simp [alphaEquivalentUnder, ih hσ]
  | binary o _ _ iha ihb => simp [alphaEquivalentUnder_binary, iha hσ, ihb hσ]
  | ternary o _ _ _ iha ihb ihc => simp [alphaEquivalentUnder, iha hσ, ihb hσ, ihc hσ]
  | quaternary o _ _ _ _ iha ihb ihc ihd =>
    simp [alphaEquivalentUnder, iha hσ, ihb hσ, ihc hσ, ihd hσ]
  | indVec _ _ _ _ _ ihl iht ihm ihb ihs =>
    simp [alphaEquivalentUnder, ihl hσ, iht hσ, ihm hσ, ihb hσ, ihs hσ]

theorem eq_const_iff {σ : NameRelation} {t t' : Core} (h : Related K σ t t') (c : Const) :
    t = .const c ↔ t' = .const c := by
  cases h with
  | const => exact Iff.rfl
  | _ => exact ⟨nofun, nofun⟩

/-- Whether two terms are equal up to bound names can be seen on terms that they are related
to. -/
theorem alphaEquivalentUnder_congr
    (hspan : ∀ s s' t t', K.span s s' → K.span t t' → (s = t ↔ s' = t')) {σ τ : NameRelation}
    {t t' s s' : Core} (h : Related K σ t t') (g : Related K τ s s')
    {ls rs ls' rs' : List String}
    (hvar : ∀ a a' b b', σ a a' → τ b b' →
      sameVariable ls rs a b = sameVariable ls' rs' a' b') :
    alphaEquivalentUnder ls rs t s = alphaEquivalentUnder ls' rs' t' s' := by
  have hpush : ∀ {σ τ : NameRelation} {ls rs ls' rs' : List String} (x x' y y' : String),
      (∀ a a' b b', σ a a' → τ b b' → sameVariable ls rs a b = sameVariable ls' rs' a' b') →
      ∀ a a' b b', σ.push x x' a a' → τ.push y y' b b' →
        sameVariable (x :: ls) (y :: rs) a b = sameVariable (x' :: ls') (y' :: rs') a' b' := by
    rintro σ τ ls rs ls' rs' x x' y y' hvar a a' b b' (⟨rfl, rfl⟩ | ⟨ha, ha', haa⟩)
      (⟨rfl, rfl⟩ | ⟨hb, hb', hbb⟩)
    · simp [sameVariable_cons]
    · simp [sameVariable_cons, hb, hb']
    · simp [sameVariable_cons, ha, ha']
    · simp [sameVariable_cons, ha, ha', hb, hb', hvar a a' b b' haa hbb]
  induction h generalizing τ s s' ls rs ls' rs' with
  | var h =>
    cases g with
    | var g => simp [alphaEquivalentUnder, hvar _ _ _ _ h g]
    | _ => simp [alphaEquivalentUnder]
  | const c => cases g <;> simp [alphaEquivalentUnder]
  | quote a => cases g <;> simp [alphaEquivalentUnder]
  | todo hs _ ih =>
    cases g with
    | todo gs g => simp [alphaEquivalentUnder, hspan _ _ _ _ hs gs, ih g hvar]
    | _ => simp [alphaEquivalentUnder]
  | quant q _ _ _ ihb ihf =>
    cases g with
    | quant q' _ gb gf => simp [alphaEquivalentUnder, ihb gb hvar, ihf gf (hpush _ _ _ _ hvar)]
    | _ => simp [alphaEquivalentUnder]
  | lam _ _ ih =>
    cases g with
    | lam _ g => simp [alphaEquivalentUnder, ih g (hpush _ _ _ _ hvar)]
    | _ => simp [alphaEquivalentUnder]
  | unary o _ ih =>
    cases g with
    | unary o' g => simp [alphaEquivalentUnder, ih g hvar]
    | _ => simp [alphaEquivalentUnder]
  | binary o ha hb iha ihb =>
    cases g with
    | binary o' ga gb =>
      simp [alphaEquivalentUnder_binary, iha ga hvar, ihb gb hvar, ha.eq_const_iff,
        ga.eq_const_iff]
    | _ => simp [alphaEquivalentUnder]
  | ternary o _ _ _ iha ihb ihc =>
    cases g with
    | ternary o' ga gb gc => simp [alphaEquivalentUnder, iha ga hvar, ihb gb hvar, ihc gc hvar]
    | _ => simp [alphaEquivalentUnder]
  | quaternary o _ _ _ _ iha ihb ihc ihd =>
    cases g with
    | quaternary o' ga gb gc gd =>
      simp [alphaEquivalentUnder, iha ga hvar, ihb gb hvar, ihc gc hvar, ihd gd hvar]
    | _ => simp [alphaEquivalentUnder]
  | indVec _ _ _ _ _ ihl iht ihm ihb ihs =>
    cases g with
    | indVec gl gt gm gb gs =>
      simp [alphaEquivalentUnder, ihl gl hvar, iht gt hvar, ihm gm hvar, ihb gb hvar,
        ihs gs hvar]
    | _ => simp [alphaEquivalentUnder]

end Related

end Core

end PieChecker
