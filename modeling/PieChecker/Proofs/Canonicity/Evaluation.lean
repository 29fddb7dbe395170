import PieChecker.Proofs.Canonicity.Elimination

set_option autoImplicit false

/-!
# Evaluating terms that stand for elements

A term that stands for an element in an instance evaluates to a value that represents the
element, in every environment whose values represent those of the instance. The environment may
contain variables, which belong to the world, and the evaluation may delay parts and may stop
early.
-/

namespace PieChecker

open Value

/-- The values of an environment represent those of an instance. -/
def Instance.RepresentedBy (Θ : Instance) (W : Instance) (ρ : Environment) : Prop :=
  ∀ x S c, Θ.lookup x = some (S, c) → ∃ v, ρ.lookup x = some v ∧ S.Represents W v c

namespace Instance.RepresentedBy

variable {Θ W W' : Instance} {ρ : Environment} {A : Code} {a c : Value}

theorem mono (h : Θ.RepresentedBy W ρ) (hW : W.Sub W') : Θ.RepresentedBy W' ρ := by
  intro x S c hx
  obtain ⟨v, hv, hvc⟩ := h x S c hx
  exact ⟨v, hv, hvc.mono hW⟩

theorem cons (h : Θ.RepresentedBy W ρ) (x : String) (ha : A.Represents W a c) :
    Instance.RepresentedBy ((x, A, c) :: Θ) W ((x, a) :: ρ) := by
  intro y S d hy
  rw [List.lookup_cons] at hy ⊢
  split at hy
  · cases hy
    exact ⟨a, rfl, ha⟩
  · exact h y S d hy

end Instance.RepresentedBy

/-- What a value represents in a world. -/
def Meaning.Represented (W : Instance) (v : Value) : Meaning → Prop
  | type S => S.RepresentsType W v
  | element w S => S.Represents W v w
  | function A a R s => Code.RepresentsNear A a R s W v

/-- A part that may be delayed represents what its value does. -/
theorem Code.represents_part {S : Code} {W : Instance} {strategy : Strategy}
    {evaluate : Core → Outcome Value} {t : Core} {v w : Value}
    (h : ∀ v, evaluate t = .ok v → S.Represents W v w) (hw : S.Relates w w)
    (hv : strategy.part evaluate t = .ok v) : S.Represents W v w := by
  cases strategy with
  | atOnce => exact h v hv
  | onDemand =>
    simp only [Strategy.part] at hv
    split at hv
    · exact h v hv
    · cases hv
      cases hresult : evaluate t with
      | error stop =>
        exact represents_of_error (v := .suspend fun _ => _) (by rw [now_suspend]; rfl) hw
      | ok u => exact (h u hresult).of_now_eq (by rw [now_suspend]; rfl)

namespace Code

variable {W : Instance} {A S : Code} {F : Value → Code} {v w : Value}

/-- A value that is neither delayed nor stuck. -/
theorem isOpen_head (hv : v.now = .ok v) (hstuck : ∀ T stuck, v ≠ .neutral T stuck)
    (hw : S.Relates w w) :
    IsOpen W S v w := by
  refine ⟨hw, fun u hu => ?_, fun T stuck hu => ?_⟩ <;> cases hv.symm.trans hu
  · exact hv
  · exact (hstuck T stuck rfl).elim

theorem represents_cons {a d c e : Value} (ha : A.Represents W a c)
    (hd : (F c).Represents W d e) :
    (quant .sigma A F).Represents W (.cons a d) (.cons c e) := by
  refine represents_sigma_iff.2 ⟨isOpen_head rfl nofun ?_, c, e, rfl, ?_, ?_⟩
  · exact ⟨c, e, c, e, rfl, rfl, ha.relates, hd.relates⟩
  · rintro _ ⟨⟩
    exact ha
  · rintro _ _ _ ⟨⟩
    exact hd

theorem represents_lam {x : String} {body : Closure} (hw : (quant .pi A F).Relates w w)
    (h : ∀ W' a c, W.Sub W' → A.Represents W' a c → ∀ strategy fuel r,
      body.run strategy fuel a = .ok r →
      ∃ s, w.Applies c s ∧ (F c).Represents W' r s) :
      (quant .pi A F).Represents W (.lam x body) w := by
  refine represents_pi_iff.2 ⟨isOpen_head rfl nofun hw,
    fun W' a c hW ha strategy fuel r hr => ?_⟩
  obtain _ | fuel := fuel
  · cases hr
  exact h W' a c hW ha strategy fuel r hr

/-- A function represents the same near every point. -/
theorem Represents.near {a s : Value} (h : (quant .pi A F).Represents W v w)
    (hS : (quant .pi A F).Denoted) (hs : w.Applies a s) : RepresentsNear A a (F a) s W v := by
  obtain ⟨hopen, happly⟩ := represents_pi_iff.1 h
  refine ⟨hopen.2.1, fun W' b c hW hb hca strategy fuel r hr => ?_⟩
  obtain ⟨s', hs', hrs⟩ := happly W' b c hW hb strategy fuel r hr
  obtain ⟨s₁, s₂, h₁, h₂, hss⟩ := hopen.1 c a hca
  obtain rfl := h₁.unique hs'
  obtain rfl := h₂.unique hs
  have hagree := hS.family hca
  exact (hrs.rel hagree.left hss).conv hagree

end Code

namespace Derives

open Code PieChecker.Core

/-- By induction on how the term stands for its meaning, one case for each kind of term. -/
theorem represents {Θ W : Instance} {t : Core} {M : Meaning} {ρ : Environment}
    {strategy : Strategy} {fuel : Nat} {v : Value} (h : Derives Θ t M) (hΘ : Θ.Valid)
    (hρ : Θ.RepresentedBy W ρ) (hv : t.evaluate strategy fuel ρ = .ok v) :
    M.Represented W v := by
  induction h generalizing W ρ strategy fuel v with
  | const h =>
    obtain _ | fuel := fuel <;> cases hv
    exact representsType_const h
  | quant q hbase _ ihbase ihfamily =>
    obtain _ | fuel := fuel
    · cases hv
    obtain ⟨b, hb, ⟨⟩⟩ := bind_eq_ok_iff.1 hv
    refine representsType_quant (ihbase hΘ hρ hb) fun W' a c hW ha strategy fuel T hT => ?_
    obtain _ | fuel := fuel
    · cases hT
    exact ihfamily c ha.relates (hΘ.cons _ (hbase.type_denoted hΘ) ha.relates)
      ((hρ.mono hW).cons _ ha) hT
  | list _ ih =>
    obtain _ | fuel := fuel
    · cases hv
    obtain ⟨e, he, ⟨⟩⟩ := bind_eq_ok_iff.1 hv
    exact representsType_list (ih hΘ hρ he)
  | vec _ _ ihe ihl =>
    obtain _ | fuel := fuel
    · cases hv
    obtain ⟨e, l, he, hl, ⟨⟩⟩ := binary_operands_of_eq_ok hv
    exact representsType_vec (ihe hΘ hρ he) (ihl hΘ hρ hl)
  | either _ _ ihl ihr =>
    obtain _ | fuel := fuel
    · cases hv
    obtain ⟨l, r, hl, hr, ⟨⟩⟩ := binary_operands_of_eq_ok hv
    exact representsType_either (ihl hΘ hρ hl) (ihr hΘ hρ hr)
  | equal _ hl hr ihs ihl ihr =>
    obtain _ | fuel := fuel
    · cases hv
    obtain ⟨s, l, r, hs, hl', hr', ⟨⟩⟩ := ternary_operands_of_eq_ok hv
    exact representsType_equal (ihs hΘ hρ hs)
      (represents_part (fun _ => ihl hΘ hρ) (hl.relates hΘ) hl')
      (represents_part (fun _ => ihr hΘ hρ) (hr.relates hΘ) hr')
  | el h hT ih => exact Represents.type_of_univ (ih hΘ hρ hv) (h.relates hΘ) hT
  | small _ hS hT ih => exact represents_univ_iff.2 ⟨_, hS, ih hΘ hρ hv, hT⟩
  | conv _ hS ih => exact Represents.conv (ih hΘ hρ hv) hS
  | rel h hw ih => exact Represents.rel (ih hΘ hρ hv) (h.denoted hΘ) hw
  | var h =>
    obtain _ | fuel := fuel
    · cases hv
    obtain ⟨u, hu, hrep⟩ := hρ _ _ _ h
    simp only [Core.evaluate, hu] at hv
    cases hv
    exact hrep
  | the _ _ _ ih =>
    obtain _ | fuel := fuel
    · cases hv
    exact ih hΘ hρ hv
  | zero =>
    obtain _ | fuel := fuel <;> cases hv
    exact represents_zero
  | add1 h ih =>
    obtain _ | fuel := fuel
    · cases hv
    obtain ⟨p, hp, ⟨⟩⟩ := bind_eq_ok_iff.1 hv
    exact represents_add1 (represents_part (fun _ => ih hΘ hρ) (h.relates hΘ) hp)
  | quote a =>
    obtain _ | fuel := fuel <;> cases hv
    exact .inl ⟨a, rfl, rfl⟩
  | sole =>
    obtain _ | fuel := fuel <;> cases hv
    exact isOpen_head rfl (by rintro _ _ ⟨⟩) ⟨rfl, rfl⟩
  | nil =>
    obtain _ | fuel := fuel <;> cases hv
    exact ListForm.nil rfl
  | listCons ha has iha ihas =>
    obtain _ | fuel := fuel
    · cases hv
    obtain ⟨a, as, ha', has', ⟨⟩⟩ := binary_operands_of_eq_ok hv
    exact ListForm.cons rfl (represents_part (fun _ => iha hΘ hρ) (ha.relates hΘ) ha')
      (represents_part (S := .list _) (fun _ => ihas hΘ hρ) (has.relates hΘ) has')
  | vecnil =>
    obtain _ | fuel := fuel <;> cases hv
    exact VecForm.nil rfl
  | vecCons ha has iha ihas =>
    obtain _ | fuel := fuel
    · cases hv
    obtain ⟨a, as, ha', has', ⟨⟩⟩ := binary_operands_of_eq_ok hv
    exact VecForm.cons rfl (represents_part (fun _ => iha hΘ hρ) (ha.relates hΘ) ha')
      (represents_part (S := .vec _ _) (fun _ => ihas hΘ hρ) (has.relates hΘ) has')
  | left h _ ih =>
    obtain _ | fuel := fuel
    · cases hv
    obtain ⟨a, ha, ⟨⟩⟩ := bind_eq_ok_iff.1 hv
    exact SumForm.left rfl (represents_part (fun _ => ih hΘ hρ) (h.relates hΘ) ha)
  | right h _ ih =>
    obtain _ | fuel := fuel
    · cases hv
    obtain ⟨a, ha, ⟨⟩⟩ := bind_eq_ok_iff.1 hv
    exact SumForm.right rfl (represents_part (fun _ => ih hΘ hρ) (h.relates hΘ) ha)
  | same h ih =>
    obtain _ | fuel := fuel
    · cases hv
    obtain ⟨p, hp, ⟨⟩⟩ := bind_eq_ok_iff.1 hv
    have hrelates := h.relates hΘ
    exact represents_same (represents_part (fun _ => ih hΘ hρ) hrelates hp) hrelates hrelates
  | cons _ ha hd iha ihd =>
    obtain _ | fuel := fuel
    · cases hv
    obtain ⟨a, d, ha', hd', ⟨⟩⟩ := binary_operands_of_eq_ok hv
    exact represents_cons (represents_part (fun _ => iha hΘ hρ) (ha.relates hΘ) ha')
      (represents_part (fun _ => ihd hΘ hρ) (hd.relates hΘ) hd')
  | lam hS hw hr _ ih =>
    obtain _ | fuel := fuel <;> cases hv
    refine represents_lam hw fun W' a c hW ha strategy fuel r hbody => ⟨_, hr c ha.relates, ?_⟩
    obtain _ | fuel := fuel
    · cases hbody
    exact ih c ha.relates (hΘ.cons _ hS.base ha.relates) ((hρ.mono hW).cons _ ha) hbody
  | ofPi h _ hs ih => exact Represents.near (ih hΘ hρ hv) (h.denoted hΘ) hs
  | lamAt hA _ _ ih =>
    obtain _ | fuel := fuel <;> cases hv
    refine ⟨fun u hu => by cases hu; rfl, fun W' b c hW hb hca strategy fuel r hr => ?_⟩
    obtain _ | _ | fuel := fuel
    · cases hr
    · cases hr
    exact ih c hca (hΘ.cons _ hA hb.relates) ((hρ.mono hW).cons _ hb) hr
  | apply hf ha hr ihf iha =>
    obtain _ | fuel := fuel
    · cases hv
    obtain ⟨f, a, hf', ha', hv⟩ := binary_operands_of_eq_ok hv
    exact Represents.apply (ihf hΘ hρ hf')
      (represents_part (fun _ => iha hΘ hρ) (ha.relates hΘ) ha') hv hr
  | car _ ih =>
    obtain _ | fuel := fuel
    · cases hv
    obtain ⟨p, hp, hv⟩ := bind_eq_ok_iff.1 hv
    obtain ⟨-, c, d, h, hcar, -⟩ := represents_sigma_iff.1 (ih hΘ hρ hp)
    cases h
    exact hcar v hv
  | cdr _ ih =>
    obtain _ | fuel := fuel
    · cases hv
    obtain ⟨p, hp, hv⟩ := bind_eq_ok_iff.1 hv
    obtain ⟨-, c, d, h, -, hcdr⟩ := represents_sigma_iff.1 (ih hΘ hρ hp)
    cases h
    exact hcdr _ _ v hv
  | head h ih =>
    obtain _ | fuel := fuel
    · cases hv
    obtain ⟨u, hu, hv⟩ := bind_eq_ok_iff.1 hv
    exact represents_head (ih hΘ hρ hu) (h.denoted hΘ).vec_entry hv
  | tail h ih =>
    obtain _ | fuel := fuel
    · cases hv
    obtain ⟨u, hu, hv⟩ := bind_eq_ok_iff.1 hv
    exact represents_tail (ih hΘ hρ hu) (h.denoted hΘ).vec_entry hv
  | symm h ih =>
    obtain _ | fuel := fuel
    · cases hv
    obtain ⟨u, hu, hv⟩ := bind_eq_ok_iff.1 hv
    exact represents_symm (ih hΘ hρ hu) (h.denoted hΘ).equal_space hv
  | trans h _ ih ih' =>
    obtain _ | fuel := fuel
    · cases hv
    obtain ⟨u, u', hu, hu', hv⟩ := binary_operands_of_eq_ok hv
    exact represents_trans (ih hΘ hρ hu) (ih' hΘ hρ hu') (h.denoted hΘ).equal_space hv
  | cong h hty hf ih ihty ihf =>
    obtain _ | fuel := fuel
    · cases hv
    obtain ⟨u, T, f, hu, hT, hf', hv⟩ := ternary_operands_of_eq_ok hv
    have hs := (Derives.cong h hty hf).relates hΘ
    obtain ⟨_, _, h₁, -, hs, -, -⟩ := hs
    cases h₁
    exact represents_cong (ih hΘ hρ hu) (h.denoted hΘ).equal_space (hty.type_denoted hΘ)
      (ihty hΘ hρ hT) (ihf hΘ hρ hf') hs hv
  | replace h _ hT hR _ ih ihm ihb =>
    obtain _ | fuel := fuel
    · cases hv
    obtain ⟨u, m, b, hu, hm, hb, hv⟩ := ternary_operands_of_eq_ok hv
    exact represents_replace (ih hΘ hρ hu) (h.denoted hΘ).equal_space (ihm hΘ hρ hm) hT hR
      (ihb hΘ hρ hb) hv
  | indEq h hm hf hT hR _ ih ihm ihb =>
    obtain _ | fuel := fuel
    · cases hv
    obtain ⟨u, m, b, hu, hm', hb, hv⟩ := ternary_operands_of_eq_ok hv
    exact represents_indEq (ih hΘ hρ hu) (h.denoted hΘ).equal_space (ihm hΘ hρ hm')
      (hm.denoted hΘ) hf hT hR (ihb hΘ hρ hb) hv
  | whichNat _ hty _ _ hw ih ihty ihb ihs =>
    obtain _ | fuel := fuel
    · cases hv
    obtain ⟨n, T, b, s, hn, hT, hb, hs, hv⟩ := quaternary_operands_of_eq_ok hv
    exact represents_whichNat (ih hΘ hρ hn) ⟨hty.type_denoted hΘ, ihty hΘ hρ hT, ihb hΘ hρ hb⟩
      (ihs hΘ hρ hs) hv hw
  | iterNat _ hty _ _ hw ih ihty ihb ihs =>
    obtain _ | fuel := fuel
    · cases hv
    obtain ⟨n, T, b, s, hn, hT, hb, hs, hv⟩ := quaternary_operands_of_eq_ok hv
    exact represents_iterNat (ih hΘ hρ hn) ⟨hty.type_denoted hΘ, ihty hΘ hρ hT, ihb hΘ hρ hb⟩
      (ihs hΘ hρ hs) hv hw
  | recNat _ hty _ _ hw ih ihty ihb ihs =>
    obtain _ | fuel := fuel
    · cases hv
    obtain ⟨n, T, b, s, hn, hT, hb, hs, hv⟩ := quaternary_operands_of_eq_ok hv
    exact represents_recNat (ih hΘ hρ hn) ⟨hty.type_denoted hΘ, ihty hΘ hρ hT, ihb hΘ hρ hb⟩
      (ihs hΘ hρ hs) hv hw
  | recList ht hty _ _ hw ih ihty ihb ihs =>
    obtain _ | fuel := fuel
    · cases hv
    obtain ⟨l, T, b, s, hl, hT, hb, hs, hv⟩ := quaternary_operands_of_eq_ok hv
    exact represents_recList (ih hΘ hρ hl) (ht.denoted hΘ).list_entry
      ⟨hty.type_denoted hΘ, ihty hΘ hρ hT, ihb hΘ hρ hb⟩ (ihs hΘ hρ hs) hv hw
  | indNat _ _ hP _ hs hw ih ihm ihb ihs =>
    obtain _ | fuel := fuel
    · cases hv
    obtain ⟨n, m, b, s, hn, hm, hb, hs', hv⟩ := quaternary_operands_of_eq_ok hv
    exact represents_indNat (ih hΘ hρ hn) (ihm hΘ hρ hm) hP (ihb hΘ hρ hb) (ihs hΘ hρ hs')
      (hs.denoted hΘ) hv hw
  | indList ht _ hP _ hs hw ih ihm ihb ihs =>
    obtain _ | fuel := fuel
    · cases hv
    obtain ⟨l, m, b, s, hl, hm, hb, hs', hv⟩ := quaternary_operands_of_eq_ok hv
    exact represents_indList (ih hΘ hρ hl) (ht.denoted hΘ).list_entry (ihm hΘ hρ hm) hP
      (ihb hΘ hρ hb) (ihs hΘ hρ hs') (hs.denoted hΘ) hv hw
  | indEither ht _ hP hl hr hw ih ihm ihl ihr =>
    obtain _ | fuel := fuel
    · cases hv
    obtain ⟨e, m, l, r, he, hm, hl', hr', hv⟩ := quaternary_operands_of_eq_ok hv
    have hdenoted := ht.denoted hΘ
    exact represents_indEither (ih hΘ hρ he) hdenoted.either_left hdenoted.either_right
      (ihm hΘ hρ hm) hP (ihl hΘ hρ hl') (ihr hΘ hρ hr') (hl.denoted hΘ) (hr.denoted hΘ) hv hw
  | indVec _ ht _ hP _ hs hw ihl ih ihm ihb ihs =>
    obtain _ | fuel := fuel
    · cases hv
    obtain ⟨u, hu, hv⟩ := bind_eq_ok_iff.1 hv
    obtain ⟨l, m, b, s, hl, hm, hb, hs', hv⟩ := quaternary_operands_of_eq_ok hv
    exact represents_indVec (ih hΘ hρ hu) (ht.denoted hΘ).vec_entry (ihl hΘ hρ hl)
      (ihm hΘ hρ hm) hP (ihb hΘ hρ hb) (ihs hΘ hρ hs') (hs.denoted hΘ) hv hw

end Derives

end PieChecker
