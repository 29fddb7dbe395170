import PieChecker.Proofs.Canonicity.Checking

set_option autoImplicit false

/-!
# What accepted expressions without unfinished parts mean

The rules of every construct are sound if those of its parts are, with one exception: nothing is
known about an unfinished part. So the rules of expressions without unfinished parts are sound.
-/

namespace PieChecker

namespace Rules

open Code (denoted_univ denoted_nat denoted_atom denoted_trivial denoted_list denoted_vec
  denoted_either denoted_arrow representsType_const representsType_list representsType_vec
    representsType_either representsType_equal
  representsType_arrow)

variable {E : Engine} {span : Span} {a b c d : Part}

/-! ## Constants, variables and literals -/

theorem const_sound (k : Const) : (const E span k).Sound := by
  cases k with
  | univ => exact univ_sound
  | nat =>
    rw [const]
    exact former_sound fun _ _ => ⟨.nat, .const rfl, fun _ => True.intro⟩
  | atom =>
    rw [const]
    exact former_sound fun _ _ => ⟨.atom, .const rfl, fun _ => True.intro⟩
  | trivial =>
    rw [const]
    exact former_sound fun _ _ => ⟨.trivial, .const rfl, fun _ => True.intro⟩
  | absurd =>
    rw [const]
    exact former_sound fun _ _ => ⟨.absurd, .const rfl, fun _ => True.intro⟩
  | zero => exact inferred_sound fun _ => ⟨.nat, .zero, representsType_const rfl, .zero⟩
  | sole =>
    exact inferred_sound fun _ => ⟨.trivial, .const .sole, representsType_const rfl, .sole⟩
  | nil =>
    refine checked_sound fun {S W Θ C ty} hΓ hC hty => ?_
    split
    · obtain ⟨A, rfl, -⟩ := hty.of_list rfl
      exact .of_ok ⟨.const .nil, .nil hC.list_entry⟩
    · exact S.rejectFormer_yields E span .list _
  | vecnil =>
    refine checked_sound fun {S W Θ C ty} hΓ hC hty => ?_
    split
    · obtain ⟨A, n, rfl, -, hn⟩ := hty.of_vec rfl
      refine (Yields.lift _).bind fun l hl => ?_
      split
      · obtain rfl := Code.Represents.of_zero hn hl
        exact .of_ok ⟨.const .vecnil, .vecnil hC.vec_entry⟩
      · exact S.rejectLength_yields E span .zero _
    · exact S.rejectFormer_yields E span .vec _

theorem var_sound (x : String) : (var E span x).Sound := by
  refine inferred_sound fun {S W Θ} hΓ => (S.reference_yields span x).bind fun ⟨y, ty⟩ hty => ?_
  obtain ⟨C, w, hw, hC⟩ := hΓ.types y ty hty
  exact .of_ok ⟨C, w, hC, .var hw⟩

theorem number_sound (n : Nat) : (number E span n).Sound := by
  refine inferred_sound fun {S W Θ} hΓ => ?_
  split
  · exact True.intro
  · obtain ⟨w, hw⟩ := Derives.exists_numeral Θ n
    exact .of_ok ⟨.nat, w, representsType_const rfl, hw⟩

theorem quote_sound (x : String) : (quote E span x).Sound :=
  inferred_sound fun _ => ⟨.atom, .quote x, representsType_const rfl, .quote x⟩

/-! ## Operators -/

theorem unary_sound (o : Unary) (ha : a.rules.Sound) : (unary E span o a).Sound := by
  cases o with
  | add1 =>
    refine inferred_sound fun {S W Θ} hΓ =>
      (ha.check hΓ denoted_nat (representsType_const rfl)).bind fun t ⟨n, ht⟩ => ?_
    exact .of_ok ⟨.nat, .add1 n, representsType_const rfl, ht.add1⟩
  | car =>
    refine inferred_sound fun {S W Θ} hΓ => ?_
    refine (findQuant_sound ha hΓ .sigma .sigma).bind
      fun ⟨t, base, family⟩ ⟨A, F, w, hbase, _, ht⟩ => ?_
    obtain ⟨p, q, _, _, rfl, -⟩ := ht.relates hΓ.valid
    exact .of_ok ⟨A, p, hbase, ht.car⟩
  | cdr =>
    refine inferred_sound fun {S W Θ} hΓ => ?_
    refine (findQuant_sound ha hΓ .sigma .sigma).bind
      fun ⟨t, base, family⟩ ⟨A, F, w, hbase, hF, ht⟩ => ?_
    obtain ⟨p, q, _, _, rfl, -⟩ := ht.relates hΓ.valid
    refine (Yields.lift _).bind fun v hv => (Yields.lift _).bind fun u hu =>
      (Yields.lift _).bind fun T hT => ?_
    obtain ⟨-, _, _, ⟨⟩, hcar, -⟩ := Code.represents_sigma_iff.1 (hΓ.evaluate ht hv)
    exact .of_ok ⟨F p, q, hF W u p (.refl W) (hcar u hu) _ _ T hT, ht.cdr⟩
  | list =>
    rw [unary]
    refine former_sound fun k hΓ => (ha.component hΓ k).bind fun t ⟨A, ht, hsmall⟩ => ?_
    exact .of_ok ⟨.list A, ht.list, hsmall⟩
  | same =>
    refine checked_sound fun {S W Θ C ty} hΓ hC hty => ?_
    split
    · rename_i space lhs rhs
      obtain ⟨A, l, r, rfl, hA, hl, hr⟩ := hty.of_equal rfl
      have hD := hC.equal_space
      refine (ha.check hΓ hD hA).bind fun t ⟨w, ht⟩ => (Yields.lift _).bind fun v hv => ?_
      have hvalue : A.Keeps W space v w := ⟨hD, hA, hΓ.evaluate ht hv⟩
      refine ((hΓ.convert (E := E) ⟨hD, hA, hl⟩ hvalue).locate span).bind fun _ hlw => ?_
      refine ((hΓ.convert (E := E) hvalue ⟨hD, hA, hr⟩).locate span).bind fun _ hwr => ?_
      exact .of_ok ⟨.same w, ht.same.conv (Code.agree_equal hD (hD.equivalence.symm hlw) hwr)⟩
    · exact S.rejectFormer_yields E span .equal _
  | symm =>
    refine inferred_sound fun {S W Θ} hΓ => ?_
    refine (findEqual_sound ha hΓ).bind
      fun ⟨t, space, lhs, rhs⟩ ⟨A, l, r, w, hA, hl, hr, ht⟩ => ?_
    exact .of_ok ⟨.equal A r l, w, representsType_equal hA hr hl, ht.symm⟩
  | head =>
    refine inferred_sound fun {S W Θ} hΓ => ?_
    refine (findNonempty_sound ha hΓ).bind
      fun ⟨t, entry, previous⟩ ⟨A, n, p, ps, hA, _, ht⟩ => ?_
    exact .of_ok ⟨A, p, hA, ht.head⟩
  | tail =>
    refine inferred_sound fun {S W Θ} hΓ => ?_
    refine (findNonempty_sound ha hΓ).bind
      fun ⟨t, entry, previous⟩ ⟨A, n, p, ps, hA, hn, ht⟩ => ?_
    exact .of_ok ⟨.vec A n, ps, representsType_vec hA hn, ht.tail⟩
  | left =>
    refine checked_sound fun {S W Θ C ty} hΓ hC hty => ?_
    split
    · obtain ⟨A, B, rfl, hA, -⟩ := hty.of_either rfl
      exact (ha.check hΓ hC.either_left hA).bind fun t ⟨w, ht⟩ =>
        .of_ok ⟨.unary .left w, ht.left hC.either_right⟩
    · exact S.rejectFormer_yields E span .either _
  | right =>
    refine checked_sound fun {S W Θ C ty} hΓ hC hty => ?_
    split
    · obtain ⟨A, B, rfl, -, hB⟩ := hty.of_either rfl
      exact (ha.check hΓ hC.either_right hB).bind fun t ⟨w, ht⟩ =>
        .of_ok ⟨.unary .right w, ht.right hC.either_left⟩
    · exact S.rejectFormer_yields E span .either _

theorem binary_sound (o : Surface.Binary) (ha : a.rules.Sound) (hb : b.rules.Sound) :
    (binary E span o a b).Sound := by
  cases o with
  | the =>
    refine inferred_sound fun {S W Θ} hΓ => (ha.isType hΓ).bind fun ty ⟨C, hC⟩ =>
      (Yields.lift _).bind fun v hv => ?_
    have hv : C.RepresentsType W v := hΓ.evaluate hC hv
    exact (hb.check hΓ (hC.type_denoted hΓ.valid) hv).bind fun t ⟨w, ht⟩ =>
      .of_ok ⟨C, w, hv, hC.the ht⟩
  | pair =>
    rw [binary]
    refine former_sound fun k hΓ => nondependent_sound .sigma k ha ?_ hΓ
    rintro _ (_ | ⟨_, ⟨⟩⟩)
    exact hb
  | cons =>
    refine checked_sound fun {S W Θ C ty} hΓ hC hty => ?_
    split
    · obtain ⟨A, F, rfl, hA, hF⟩ := hty.of_quant rfl
      refine (ha.check hΓ hC.base hA).bind fun t ⟨p, ht⟩ => (Yields.lift _).bind fun v hv => ?_
      refine (Yields.lift _).bind fun T hT => ?_
      have hT : (F p).RepresentsType W T := hF W v p (.refl W) (hΓ.evaluate ht hv) _ _ T hT
      refine (hb.check hΓ (hC.family (ht.relates hΓ.valid)).left hT).bind fun u ⟨q, hu⟩ => ?_
      exact .of_ok ⟨.cons p q, .cons hC ht hu⟩
    · exact S.rejectFormer_yields E span .sigma _
  | listCons =>
    refine inferred_sound fun {S W Θ} hΓ => (ha.synthesize hΓ).bind
      fun ⟨t, entry⟩ ⟨A, p, hA, ht⟩ => ?_
    have hlist := representsType_list hA
    refine (hb.check hΓ (denoted_list (ht.denoted hΓ.valid)) hlist).bind fun u ⟨ps, hu⟩ => ?_
    exact .of_ok ⟨.list A, .listCons p ps, hlist, ht.listCons hu⟩
  | indAbsurd =>
    -- `Absurd` has no elements, so there is no instance in which the target is accepted.
    have hD : Code.absurd.Denoted := ⟨_, rfl⟩
    refine inferred_sound fun {S W Θ} hΓ => (ha.check hΓ hD (representsType_const rfl)).bind
      fun t ⟨w, ht⟩ => ?_
    exact (ht.relates hΓ.valid).elim
  | trans =>
    refine inferred_sound fun {S W Θ} hΓ => ?_
    refine (findEqual_sound ha hΓ).bind
      fun ⟨t, space, lhs, middle⟩ ⟨A, l, k, w, hA, hl, hk, ht⟩ => ?_
    refine (findEqual_sound hb hΓ).bind
      fun ⟨t', space', middle', rhs⟩ ⟨B, k', r, w', hB, hk', hr, ht'⟩ => ?_
    have hDA := (ht.denoted hΓ.valid).equal_space
    have hDB := (ht'.denoted hΓ.valid).equal_space
    refine ((hΓ.sameType (E := E) hDA hDB hA hB).locate _).bind fun _ hAB => ?_
    refine ((hΓ.convert (E := E) ⟨hDA, hA, hk⟩ ⟨hDA, hA, hk'.conv hAB.symm⟩).locate _).bind
      fun _ hkk => ?_
    have hright := Code.agree_equal_of_agree hAB.symm (hAB.relates (hDA.equivalence.symm hkk))
      hr.relates
    exact .of_ok ⟨.equal A l r, w, representsType_equal hA hl (hr.conv hAB.symm),
      ht.trans (ht'.conv hright)⟩
  | cong =>
    refine inferred_sound fun {S W Θ} hΓ => ?_
    refine (findEqual_sound ha hΓ).bind
      fun ⟨t, space, lhs, rhs⟩ ⟨A, l, r, w, hA, hl, hr, ht⟩ => ?_
    refine (findQuant_sound hb hΓ .pi .pi).bind
      fun ⟨f, base, family⟩ ⟨B, F, wf, hB, hF, hf⟩ => ?_
    have hD := hf.denoted hΓ.valid
    refine ((hΓ.sameType (E := E) (ht.denoted hΓ.valid).equal_space hD.base hA hB).locate
      _).bind fun _ hAB => ?_
    refine (Yields.lift _).bind fun T hT => (Yields.lift _).bind fun v hv =>
      (Yields.lift _).bind fun u hu => ?_
    refine (Yields.lift _).bind fun u' hu' => (Yields.lift _).bind fun ty hty => ?_
    have hT : (F l).RepresentsType W T := hF W lhs l (.refl W) (hl.conv hAB) _ _ T hT
    have hv : (Code.quant .pi B F).Represents W v wf := hΓ.evaluate hf hv
    -- The sides are equal in every instance, so the results have the same type there.
    obtain ⟨_, _, -, -, -, -, hlr⟩ := ht.relates hΓ.valid
    have hlr : B.Relates l r := hAB.relates hlr
    obtain ⟨s, s', hs, hs', hss⟩ := hf.relates hΓ.valid l r hlr
    have hR := (hD.family hlr).left
    have hu : (F l).Represents W u s := hv.apply (hl.conv hAB) hu hs
    have hu' : (F l).Represents W u' s' :=
      (hv.apply (hr.conv hAB) hu' hs').conv (hD.family hlr).symm
    have htarget := ht.conv (Code.agree_equal_of_agree hAB hl.relates hr.relates)
    have hcong := htarget.cong (hΓ.readBackType hR hT hty)
      (hf.ofPi (hD.base.equivalence.left hlr) hs)
    exact .of_ok ⟨.equal (F l) s s', .same s, representsType_equal hT hu hu',
      hcong.conv (Code.agree_equal hR (hR.equivalence.left hss) hss)⟩
  | vec =>
    rw [binary]
    refine former_sound fun k hΓ => (ha.component hΓ k).bind fun t ⟨A, ht, hsmall⟩ => ?_
    refine (hb.check hΓ denoted_nat (representsType_const rfl)).bind fun u ⟨n, hu⟩ => ?_
    exact .of_ok ⟨.vec A n, ht.vec hu, hsmall⟩
  | vecCons =>
    refine checked_sound fun {S W Θ C ty} hΓ hC hty => ?_
    split
    · obtain ⟨A, n, rfl, hA, hn⟩ := hty.of_vec rfl
      refine (Yields.lift _).bind fun l hl => ?_
      split
      · obtain ⟨n, rfl, hprevious⟩ := Code.Represents.of_add1 hn hl
        refine (ha.check hΓ hC.vec_entry hA).bind fun t ⟨p, ht⟩ => ?_
        have hrest := denoted_vec hC.vec_entry (hprevious.relates).2
        refine (hb.check hΓ hrest (representsType_vec hA hprevious)).bind fun u ⟨ps, hu⟩ => ?_
        exact .of_ok ⟨.vecCons p ps, ht.vecCons hu⟩
      · exact S.rejectLength_yields E span .successor _
    · exact S.rejectFormer_yields E span .vec _
  | either =>
    rw [binary]
    refine former_sound fun k hΓ => (ha.component hΓ k).bind fun t ⟨A, ht, hA⟩ => ?_
    refine (hb.component hΓ k).bind fun u ⟨B, hu, hB⟩ => ?_
    exact .of_ok ⟨.either A B, ht.either hu, fun hk => ⟨hA hk, hB hk⟩⟩

/-! ## Eliminators -/

/-- The eliminators of numbers at a fixed type differ in the type of their step and in what they
compute. -/
theorem natRecursor_sound {o : Core.Quaternary} {stepType : Value → Value} {step : Code → Code}
    (ha : a.rules.Sound) (hb : b.rules.Sound) (hc : c.rules.Sound)
    (hdenoted : ∀ {R : Code}, R.Denoted → (step R).Denoted)
    (hstep : ∀ {W : Instance} {R : Code} {T : Value}, R.RepresentsType W T →
      (step R).RepresentsType W (stepType T))
        (hrule : ∀ {Θ : Instance} {R : Code} {t ty b s : Core} {n wb ws : Value}, Θ.Valid →
          Derives Θ t (.element n .nat) → Derives Θ ty (.type R) → Derives Θ b (.element wb R) →
          Derives Θ s (.element ws (step R)) →
      ∃ w, Derives Θ (.quaternary o t ty b s) (.element w R)) :
      (natRecursor E span o stepType a b c).Sound := by
  refine inferred_sound fun {S W Θ} hΓ =>
    (ha.check hΓ denoted_nat (representsType_const rfl)).bind fun t ⟨n, ht⟩ => ?_
  refine (hb.synthesize hΓ).bind fun ⟨base, T⟩ ⟨R, wb, hT, hbase⟩ => ?_
  have hR := hbase.denoted hΓ.valid
  refine (hc.check hΓ (hdenoted hR) (hstep hT)).bind fun s ⟨ws, hs⟩ =>
    (Yields.lift _).bind fun ty hty => ?_
  obtain ⟨w, hw⟩ := hrule hΓ.valid ht (hΓ.readBackType hR hT hty) hbase hs
  exact .of_ok ⟨R, w, hT, hw⟩

theorem ternary_sound (o : Surface.Ternary) (ha : a.rules.Sound) (hb : b.rules.Sound)
    (hc : c.rules.Sound) :
    (ternary E span o a b c).Sound := by
  cases o with
  | whichNat =>
    refine natRecursor_sound ha hb hc (denoted_arrow denoted_nat)
      (fun hT => representsType_arrow (representsType_const rfl) hT) fun hΘ ht hty hb hs => ?_
    obtain ⟨w, -, hw, -, -⟩ := Code.natCase_relates (hb.relates hΘ) (hs.relates hΘ)
      (ht.relates hΘ).2
    exact ⟨w, ht.whichNat hty hb hs hw⟩
  | iterNat =>
    refine natRecursor_sound ha hb hc (fun hR => denoted_arrow hR hR)
      (fun hT => representsType_arrow hT hT)
      fun hΘ ht hty hb hs => ?_
    obtain ⟨w, -, hw, -, -⟩ := Code.natIter_relates (hb.relates hΘ) (hs.relates hΘ)
      (ht.relates hΘ).2
    exact ⟨w, ht.iterNat hty hb hs hw⟩
  | recNat =>
    refine natRecursor_sound ha hb hc
      (fun hR => denoted_arrow denoted_nat (denoted_arrow hR hR))
      (fun hT => representsType_arrow (representsType_const rfl) (representsType_arrow hT hT))
      fun {Θ R _ _ _ _ _ _ _} hΘ ht hty hb hs => ?_
    obtain ⟨w, -, hw, -, -⟩ :=
      Code.natRec_relates (P := fun _ => R) (hb.relates hΘ) (hs.relates hΘ) (ht.relates hΘ).2
    exact ⟨w, ht.recNat hty hb hs hw⟩
  | recList =>
    refine inferred_sound fun {S W Θ} hΓ => (findList_sound ha hΓ).bind
      fun ⟨t, entry⟩ ⟨A, ps, hA, ht⟩ => ?_
    refine (hb.synthesize hΓ).bind fun ⟨base, T⟩ ⟨R, wb, hT, hbase⟩ => ?_
    have hR := hbase.denoted hΓ.valid
    have hlist := ht.denoted hΓ.valid
    have hstep : (Code.listStep A fun _ => R).Denoted :=
      denoted_arrow hlist.list_entry (denoted_arrow hlist (denoted_arrow hR hR))
    have hstepType : (Code.listStep A fun _ => R).RepresentsType W (.recListStepType entry T) :=
      representsType_arrow hA (representsType_arrow (representsType_list hA)
        (representsType_arrow hT hT))
    refine (hc.check hΓ hstep hstepType).bind fun s ⟨ws, hs⟩ =>
      (Yields.lift _).bind fun ty hty => ?_
    obtain ⟨w, -, hw, -, -⟩ := Code.listRec_relates (P := fun _ => R) (hbase.relates hΓ.valid)
      (hs.relates hΓ.valid) (ht.relates hΓ.valid)
    exact .of_ok ⟨R, w, hT, ht.recList (hΓ.readBackType hR hT hty) hbase hs hw⟩
  | equal =>
    rw [ternary]
    refine former_sound fun k hΓ => (ha.component hΓ k).bind fun t ⟨A, ht, hsmall⟩ =>
      (Yields.lift _).bind fun v hv => ?_
    have hD := ht.type_denoted hΓ.valid
    refine (hb.check hΓ hD (hΓ.evaluate ht hv)).bind fun l ⟨wl, hl⟩ => ?_
    refine (hc.check hΓ hD (hΓ.evaluate ht hv)).bind fun r ⟨wr, hr⟩ => ?_
    exact .of_ok ⟨.equal A wl wr, ht.equal hl hr, hsmall⟩
  | replace =>
    refine inferred_sound fun {S W Θ} hΓ => ?_
    refine (findEqual_sound ha hΓ).bind
      fun ⟨t, space, lhs, rhs⟩ ⟨A, l, r, w, hA, hl, hr, ht⟩ => ?_
    have hD := (ht.denoted hΓ.valid).equal_space
    refine (checkMotive_sound hb hΓ (denoted_arrow hD denoted_univ)
      (representsType_arrow hA (representsType_const rfl))).bind fun ⟨m, mv⟩ ⟨wm, hm, hmv⟩ => ?_
    -- The motive gives the same type at both sides.
    obtain ⟨_, _, -, -, -, -, hlr⟩ := ht.relates hΓ.valid
    obtain ⟨L, R, hL, hR, hLR⟩ := hm.relates hΓ.valid l r hlr
    obtain ⟨C, -, hCL, hCR⟩ := Code.relates_univ_iff.1 hLR
    refine (Yields.lift _).bind fun T hT => ?_
    have hbase : C.RepresentsType W T := hmv.motive_at hl hl.relates hL hCL hT
    refine (hc.check hΓ ⟨L, hCL⟩ hbase).bind fun b ⟨wb, hb⟩ =>
      (Yields.lift _).bind fun T' hT' => ?_
    exact .of_ok ⟨C, wb, hmv.motive_at hr hr.relates hR hCR hT', ht.replace hm hR hCR hb⟩
  | indEq =>
    refine inferred_sound fun {S W Θ} hΓ => ?_
    refine (findEqual_sound ha hΓ).bind
      fun ⟨t, space, lhs, rhs⟩ ⟨A, l, r, w, hA, hl, hr, ht⟩ => ?_
    have hD := (ht.denoted hΓ.valid).equal_space
    refine (checkMotive_sound hb hΓ (Code.denoted_eqMotive hD hl.relates)
      (Code.representsType_eqMotive hA hl)).bind fun ⟨m, mv⟩ ⟨wm, hm, hmv⟩ => ?_
    -- The motive gives the same type for the reflexive equality as for the target.
    obtain ⟨p, _, rfl, -, hp, -, hlr⟩ := ht.relates hΓ.valid
    obtain ⟨f, g, hf, hg, hfg⟩ := hm.relates hΓ.valid l r hlr
    have hsame : (Code.equal A l l).Relates (.same l) (.same p) :=
      ⟨l, p, rfl, rfl, hl.relates, hp, hl.relates⟩
    obtain ⟨L, R, hL, hR, hLR⟩ := hfg _ _ hsame
    obtain ⟨C, -, hCL, hCR⟩ := Code.relates_univ_iff.1 hLR
    refine (Yields.lift _).bind fun fv hfv => (Yields.lift _).bind fun T hT => ?_
    have hfv := Code.Represents.apply hmv hl hfv hf
    have hrefl := Code.represents_same hl hl.relates hl.relates
    have hbase : C.RepresentsType W T := hfv.motive_at hrefl hrefl.relates hL hCL hT
    refine (hc.check hΓ ⟨L, hCL⟩ hbase).bind fun b ⟨wb, hb⟩ =>
      (Yields.lift _).bind fun gv hgv => ?_
    refine (Yields.lift _).bind fun v hv => (Yields.lift _).bind fun T' hT' => ?_
    have hgv := Code.Represents.apply hmv hr hgv hg
    have htarget : (Code.equal A l r).Represents W v (.same p) := hΓ.evaluate ht hv
    exact .of_ok ⟨C, wb, hgv.motive_at htarget htarget.relates hR hCR hT',
      ht.indEq hm hg hR hCR hb⟩

theorem quaternary_sound (o : Surface.Quaternary) (ha : a.rules.Sound) (hb : b.rules.Sound)
    (hc : c.rules.Sound) (hd : d.rules.Sound) : (quaternary E span o a b c d).Sound := by
  cases o with
  | indNat =>
    refine inferred_sound fun {S W Θ} hΓ =>
      (ha.check hΓ denoted_nat (representsType_const rfl)).bind fun t ⟨n, ht⟩ => ?_
    refine (checkMotive_sound hb hΓ (denoted_arrow denoted_nat denoted_univ)
      (representsType_arrow (representsType_const rfl) (representsType_const rfl))).bind
        fun ⟨m, mv⟩ ⟨wm, hm, hmv⟩ => ?_
    obtain ⟨P, hP⟩ := Code.exists_motive denoted_nat (hm.relates hΓ.valid)
    refine (Yields.lift _).bind fun T hT => ?_
    have hzero : (P .zero).Denoted := (hP.agree denoted_nat ⟨rfl, .zero⟩).left
    have hT : (P .zero).RepresentsType W T := hmv.motive hP (.refl W) Code.represents_zero hT
    refine (hc.check hΓ hzero hT).bind fun b ⟨wb, hb⟩ => ?_
    refine (hd.check hΓ (Code.denoted_natStep hP) (Code.representsType_natStep hmv hP)).bind
      fun s ⟨ws, hs⟩ => ?_
    refine (Yields.lift _).bind fun v hv => (Yields.lift _).bind fun T' hT' => ?_
    obtain ⟨w, -, hw, -, -⟩ :=
      Code.natRec_relates (hb.relates hΓ.valid) (hs.relates hΓ.valid) (ht.relates hΓ.valid).2
    exact .of_ok ⟨P n, w, hmv.motive hP (.refl W) (hΓ.evaluate ht hv) hT',
      ht.indNat hm hP hb hs hw⟩
  | indList =>
    refine inferred_sound fun {S W Θ} hΓ => (findList_sound ha hΓ).bind
      fun ⟨t, entry⟩ ⟨A, ps, hA, ht⟩ => ?_
    have hD := ht.denoted hΓ.valid
    refine (checkMotive_sound hb hΓ (denoted_arrow hD denoted_univ)
      (representsType_arrow (representsType_list hA) (representsType_const rfl))).bind
        fun ⟨m, mv⟩ ⟨wm, hm, hmv⟩ => ?_
    obtain ⟨P, hP⟩ := Code.exists_motive hD (hm.relates hΓ.valid)
    refine (Yields.lift _).bind fun T hT => ?_
    have hnil : (P (.const .nil)).Denoted := (hP.agree hD .nil).left
    have hT : (P (.const .nil)).RepresentsType W T := hmv.motive hP (.refl W) (.nil rfl) hT
    refine (hc.check hΓ hnil hT).bind fun b ⟨wb, hb⟩ => ?_
    refine (hd.check hΓ (Code.denoted_listStep hD.list_entry hP)
      (Code.representsType_listStep hA hmv hP)).bind fun s ⟨ws, hs⟩ => ?_
    refine (Yields.lift _).bind fun v hv => (Yields.lift _).bind fun T' hT' => ?_
    obtain ⟨w, -, hw, -, -⟩ :=
      Code.listRec_relates (hb.relates hΓ.valid) (hs.relates hΓ.valid) (ht.relates hΓ.valid)
    exact .of_ok ⟨P ps, w, hmv.motive hP (.refl W) (hΓ.evaluate ht hv) hT',
      ht.indList hm hP hb hs hw⟩
  | indEither =>
    refine inferred_sound fun {S W Θ} hΓ => ?_
    refine (findEither_sound ha hΓ).bind
      fun ⟨t, leftType, rightType⟩ ⟨A, B, e, hA, hB, ht⟩ => ?_
    have hD := ht.denoted hΓ.valid
    refine (checkMotive_sound hb hΓ (denoted_arrow hD denoted_univ)
      (representsType_arrow (representsType_either hA hB) (representsType_const rfl))).bind
        fun ⟨m, mv⟩ ⟨wm, hm, hmv⟩ => ?_
    obtain ⟨P, hP⟩ := Code.exists_motive hD (hm.relates hΓ.valid)
    refine (hc.check hΓ (Code.denoted_indEitherMethod .left hD.either_left hP .left)
      (Code.representsType_indEitherMethod .left hA hmv hP fun h => .left rfl h)).bind
        fun l ⟨wl, hl⟩ => ?_
    refine (hd.check hΓ (Code.denoted_indEitherMethod .right hD.either_right hP .right)
      (Code.representsType_indEitherMethod .right hB hmv hP fun h => .right rfl h)).bind
        fun r ⟨wr, hr⟩ => ?_
    refine (Yields.lift _).bind fun v hv => (Yields.lift _).bind fun T' hT' => ?_
    obtain ⟨w, -, hw, -, -⟩ :=
      Code.sumCase_relates (hl.relates hΓ.valid) (hr.relates hΓ.valid) (ht.relates hΓ.valid)
    exact .of_ok ⟨P e, w, hmv.motive hP (.refl W) (hΓ.evaluate ht hv) hT',
      ht.indEither hm hP hl hr hw⟩

theorem indVec_sound {l t m b s : Part} (hl : l.rules.Sound) (ht : t.rules.Sound)
    (hm : m.rules.Sound) (hb : b.rules.Sound) (hs : s.rules.Sound) :
    (indVec E span l t m b s).Sound := by
  refine inferred_sound fun {S W Θ} hΓ =>
    (hl.check hΓ denoted_nat (representsType_const rfl)).bind fun l ⟨n, hl⟩ => ?_
  refine (Yields.lift _).bind fun lv hlv => ?_
  refine (findVec_sound ht hΓ).bind fun ⟨t, entry, length⟩ ⟨A, k, ps, hA, hk, ht⟩ => ?_
  have hlv : Code.nat.Represents W lv n := hΓ.evaluate hl hlv
  have hnat : Code.nat.RepresentsType W .nat := representsType_const rfl
  refine ((hΓ.convert (E := E) ⟨denoted_nat, hnat, hlv⟩ ⟨denoted_nat, hnat, hk⟩).locate _).bind
    fun _ hnk => ?_
  obtain ⟨rfl, hn⟩ := hnk
  have hD := ht.denoted hΓ.valid
  refine (checkMotive_sound hm hΓ (Code.denoted_vecMotive hD.vec_entry)
    (Code.representsType_vecMotive hA)).bind fun ⟨m, mv⟩ ⟨wm, hm, hmv⟩ => ?_
  obtain ⟨P, hP⟩ := Code.exists_vecMotive hD.vec_entry (hm.relates hΓ.valid)
  refine (Yields.lift _).bind fun f hf => (Yields.lift _).bind fun T hT => ?_
  have hbase : (P .zero (.const .vecnil)).Denoted := by
    obtain ⟨_, -, hmotive⟩ := hP .zero .zero
    exact (hmotive.agree (denoted_vec hD.vec_entry .zero) .nil).left
  have hT : (P .zero (.const .vecnil)).RepresentsType W T :=
    hmv.vecMotive hP (.refl W) Code.represents_zero (.nil rfl) hf hT
  refine (hb.check hΓ hbase hT).bind fun b ⟨wb, hb⟩ => ?_
  refine (hs.check hΓ (Code.denoted_vecStep hD.vec_entry hP)
    (Code.representsType_vecStep hA hmv hP)).bind
    fun s ⟨ws, hs⟩ => ?_
  refine (Yields.lift _).bind fun g hg => (Yields.lift _).bind fun v hv =>
    (Yields.lift _).bind fun T' hT' => ?_
  obtain ⟨w, -, hw, -, -⟩ :=
    Code.vecRec_relates (hb.relates hΓ.valid) (hs.relates hΓ.valid) hn (ht.relates hΓ.valid)
  exact .of_ok ⟨P n ps, w, hmv.vecMotive hP (.refl W) hlv (hΓ.evaluate ht hv) hg hT',
    .indVec hl ht hm hP hb hs hw⟩

end Rules

/-! ## Expressions -/

namespace Surface

namespace Expr

mutual

/-- Has the expression no unfinished parts? -/
def isFinished : Expr → Bool
  | const _ _ | var _ _ | number _ _ | quote _ _ => true
  | todo _ => false
  | unary _ _ a => a.isFinished
  | binary _ _ a b => a.isFinished && b.isFinished
  | ternary _ _ a b c => a.isFinished && b.isFinished && c.isFinished
  | quaternary _ _ a b c d => a.isFinished && b.isFinished && c.isFinished && d.isFinished
  | indVec _ l t m b s =>
    l.isFinished && t.isFinished && m.isFinished && b.isFinished && s.isFinished
  | arrow _ domain rest => domain.isFinished && areFinished rest
  | quant _ _ binders body => haveFinishedTypes binders && body.isFinished
  | lambda _ _ body => body.isFinished
  | apply _ function arguments => function.isFinished && areFinished arguments

/-- Have all expressions in a list no unfinished parts? -/
def areFinished : List Expr → Bool
  | [] => true
  | e :: es => e.isFinished && areFinished es

/-- Have all types in a list of typed binders no unfinished parts? -/
def haveFinishedTypes : List (Site × Expr) → Bool
  | [] => true
  | (_, ty) :: binders => ty.isFinished && haveFinishedTypes binders

end

variable (E : Engine)

mutual

/-- The readings of a finished expression are sound. -/
theorem rules_sound : ∀ e : Expr, e.isFinished = true → (e.rules E).Sound
  | .const span c, _ => by
    rw [rules]
    exact Rules.const_sound c
  | .todo span, h => by
    rw [isFinished] at h
    cases h
  | .var span x, _ => by
    rw [rules]
    exact Rules.var_sound x
  | .number span n, _ => by
    rw [rules]
    exact Rules.number_sound n
  | .quote span a, _ => by
    rw [rules]
    exact Rules.quote_sound a
  | .unary span o a, h => by
    rw [isFinished] at h
    rw [rules]
    exact Rules.unary_sound o (rules_sound a h)
  | .binary span o a b, h => by
    simp only [isFinished, Bool.and_eq_true] at h
    rw [rules]
    exact Rules.binary_sound o (rules_sound a h.1) (rules_sound b h.2)
  | .ternary span o a b c, h => by
    simp only [isFinished, Bool.and_eq_true] at h
    obtain ⟨⟨ha, hb⟩, hc⟩ := h
    rw [rules]
    exact Rules.ternary_sound o (rules_sound a ha) (rules_sound b hb) (rules_sound c hc)
  | .quaternary span o a b c d, h => by
    simp only [isFinished, Bool.and_eq_true] at h
    obtain ⟨⟨⟨ha, hb⟩, hc⟩, hd⟩ := h
    rw [rules]
    exact Rules.quaternary_sound o (rules_sound a ha) (rules_sound b hb) (rules_sound c hc)
      (rules_sound d hd)
  | .indVec span l t m b s, h => by
    simp only [isFinished, Bool.and_eq_true] at h
    obtain ⟨⟨⟨⟨hl, ht⟩, hm⟩, hb⟩, hs⟩ := h
    rw [rules]
    exact Rules.indVec_sound (rules_sound l hl) (rules_sound t ht) (rules_sound m hm)
      (rules_sound b hb) (rules_sound s hs)
  | .arrow span domain rest, h => by
    simp only [isFinished, Bool.and_eq_true] at h
    rw [rules]
    exact Rules.former_sound fun c hΓ =>
      Rules.nondependent_sound .pi c (rules_sound domain h.1) (partsOfList_sound rest h.2) hΓ
  | .quant span q binders body, h => by
    simp only [isFinished, Bool.and_eq_true] at h
    rw [rules]
    exact Rules.former_sound fun c hΓ =>
      Rules.telescope_sound q c (rules_sound body h.2) (partsOfBinders_sound binders h.1) hΓ
  | .lambda span parameters body, h => by
    rw [isFinished] at h
    rw [rules]
    exact Rules.checked_sound fun hΓ hC hty =>
      Rules.checkLambda_sound (rules_sound body h) parameters hΓ hC hty
  | .apply span function arguments, h => by
    simp only [isFinished, Bool.and_eq_true] at h
    rw [rules]
    refine Rules.inferred_sound fun hΓ => ((rules_sound function h.1).synthesize hΓ).bind
      fun ⟨f, ty⟩ hf => ?_
    exact Rules.applyTo_sound (partsOfList_sound arguments h.2) hΓ hf

theorem partsOfList_sound : ∀ es : List Expr, areFinished es = true → ∀ a ∈ partsOfList E es,
    a.rules.Sound
  | [], _ => by
    rw [partsOfList]
    exact nofun
  | e :: es, h => by
    simp only [areFinished, Bool.and_eq_true] at h
    rw [partsOfList]
    intro a ha
    rcases List.mem_cons.1 ha with rfl | ha
    · exact rules_sound e h.1
    · exact partsOfList_sound es h.2 a ha

theorem partsOfBinders_sound :
    ∀ binders : List (Site × Expr), haveFinishedTypes binders = true →
    ∀ b ∈ partsOfBinders E binders, b.2.rules.Sound
  | [], _ => by
    rw [partsOfBinders]
    exact nofun
  | (site, ty) :: binders, h => by
    simp only [haveFinishedTypes, Bool.and_eq_true] at h
    rw [partsOfBinders]
    intro b hb
    rcases List.mem_cons.1 hb with rfl | hb
    · exact rules_sound ty h.1
    · exact partsOfBinders_sound binders h.2 b hb

end

end Expr

/-- Has the form no unfinished parts? -/
def Form.isFinished : Form → Bool
  | claim _ ty => ty.isFinished
  | define _ term => term.isFinished
  | checkSame ty left right => ty.isFinished && left.isFinished && right.isFinished
  | expression e => e.isFinished

end Surface

end PieChecker
