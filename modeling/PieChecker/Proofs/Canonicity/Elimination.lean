import PieChecker.Proofs.Canonicity.Adequacy

set_option autoImplicit false

/-!
# Eliminating values that represent elements

If the operands of an eliminator represent elements, its result represents what the eliminator
gives for those elements. On a constructor this is what the operands promise. On a stuck target
the result is stuck as well, and it stands for the right element because the operands that it
keeps read back to terms for theirs.
-/

namespace PieChecker

namespace Code

open Value

variable {W : Instance} {A B R S : Code} {P F : Value → Code}

/-! ## What stuck eliminations stand for -/

/-- A value with its type, as a stuck elimination keeps its operands. -/
structure Keeps (S : Code) (W : Instance) (T v c : Value) : Prop where
  denoted : S.Denoted
  type : S.RepresentsType W T
  value : S.Represents W v c

section Reading

variable {Θ : Instance} {names : List String} {strategy : Strategy} {fuel : Nat} {t : Core}
variable {stuck stuck' : Neutral} {T T₁ T₂ T₃ v v₁ v₂ v₃ w wt wt' c c₁ c₂ c₃ : Value}
  {S' S₁ S₂ S₃ : Code}

theorem Keeps.reify (h : S.Keeps W T v c) (hΘ : W.Sub Θ) (hnames : Θ.NamedIn names)
    (ht : T.readBack strategy fuel names v = .ok t) : Derives Θ t (.element c S) :=
  S.adequate.reify h.denoted h.type h.value hΘ hnames ht

theorem RepresentsType.reify (hT : S.RepresentsType W T) (hS : S.Denoted) (hΘ : W.Sub Θ)
    (hnames : Θ.NamedIn names) (ht : T.readBackType strategy fuel names = .ok t) :
    Derives Θ t (.type S) :=
  S.adequate.reifyType hS hT hΘ hnames ht

/-- A type that is read back as an element of the universe is read back as a type. -/
theorem RepresentsType.reify_univ (hT : S.RepresentsType W T) (hS : S.Denoted) (hΘ : W.Sub Θ)
    (hnames : Θ.NamedIn names) (ht : Value.univ.readBack strategy fuel names T = .ok t) :
    Derives Θ t (.type S) := by
  obtain _ | fuel := fuel
  · cases ht
  rw [Value.readBack] at ht
  obtain ⟨_, ⟨⟩, ht⟩ := bind_eq_ok_iff.1 ht
  obtain ⟨u, hu, ht⟩ := bind_eq_ok_iff.1 ht
  exact (hT.forced hu).reify hS hΘ hnames ht

theorem represents_neutral (hS : S.Denoted) (hT : S.RepresentsType W T) (hw : S.Relates w w)
    (h : stuck.ReadsAs W S w) : S.Represents W (.neutral T stuck) w :=
  S.adequate.reflect hS hT hw h

theorem readsAs_of_succ (h : ∀ {Θ names strategy fuel t}, W.Sub Θ → Θ.NamedIn names →
    stuck.readBack strategy (fuel + 1) names = .ok t → Derives Θ t (.element w S)) :
    stuck.ReadsAs W S w := by
  intro Θ names strategy fuel t hΘ hnames ht
  cases fuel with
  | zero => cases ht
  | succ fuel => exact h hΘ hnames ht

theorem readsAs_project {o : Neutral.Projection} (hstuck : stuck.ReadsAs W S wt)
    (hrule : ∀ {Θ t}, Derives Θ t (.element wt S) →
      Derives Θ (.unary o.operator t) (.element w R)) :
    (Neutral.project o stuck).ReadsAs W R w := by
  refine readsAs_of_succ fun hΘ hnames ht => ?_
  rw [Neutral.readBack] at ht
  obtain ⟨t', ht', ⟨⟩⟩ := bind_eq_ok_iff.1 ht
  exact hrule (hstuck _ _ _ _ _ hΘ hnames ht')

theorem readsAs_recursor {o : Neutral.Recursor} (hstuck : stuck.ReadsAs W S wt)
    (hb : R.Keeps W T₁ v₁ c₁) (hs : S₂.Keeps W T₂ v₂ c₂)
    (hrule : ∀ {Θ t ty b s}, Derives Θ t (.element wt S) → Derives Θ ty (.type R) →
      Derives Θ b (.element c₁ R) → Derives Θ s (.element c₂ S₂) →
      Derives Θ (.quaternary o.operator t ty b s) (.element w R)) :
    (Neutral.recursor o stuck ⟨T₁, v₁⟩ ⟨T₂, v₂⟩).ReadsAs W R w := by
  refine readsAs_of_succ fun hΘ hnames ht => ?_
  rw [Neutral.readBack] at ht
  obtain ⟨tt, htt, ht⟩ := bind_eq_ok_iff.1 ht
  obtain ⟨tyt, htyt, ht⟩ := bind_eq_ok_iff.1 ht
  obtain ⟨bt, hbt, ht⟩ := bind_eq_ok_iff.1 ht
  obtain ⟨st, hst, ⟨⟩⟩ := bind_eq_ok_iff.1 ht
  exact hrule (hstuck _ _ _ _ _ hΘ hnames htt) (hb.type.reify hb.denoted hΘ hnames htyt)
    (hb.reify hΘ hnames hbt) (hs.reify hΘ hnames hst)

theorem readsAs_transport {o : Neutral.Transport} (hstuck : stuck.ReadsAs W S wt)
    (hm : S₁.Keeps W T₁ v₁ c₁) (hb : S₂.Keeps W T₂ v₂ c₂)
    (hrule : ∀ {Θ t m b}, Derives Θ t (.element wt S) → Derives Θ m (.element c₁ S₁) →
      Derives Θ b (.element c₂ S₂) → Derives Θ (.ternary o.operator t m b) (.element w R)) :
    (Neutral.transport o stuck ⟨T₁, v₁⟩ ⟨T₂, v₂⟩).ReadsAs W R w := by
  refine readsAs_of_succ fun hΘ hnames ht => ?_
  rw [Neutral.readBack] at ht
  obtain ⟨tt, htt, ht⟩ := bind_eq_ok_iff.1 ht
  obtain ⟨mt, hmt, ht⟩ := bind_eq_ok_iff.1 ht
  obtain ⟨bt, hbt, ⟨⟩⟩ := bind_eq_ok_iff.1 ht
  exact hrule (hstuck _ _ _ _ _ hΘ hnames htt) (hm.reify hΘ hnames hmt) (hb.reify hΘ hnames hbt)

theorem readsAs_induct {o : Neutral.Inductor} (hstuck : stuck.ReadsAs W S wt)
    (hm : S₁.Keeps W T₁ v₁ c₁) (hb : S₂.Keeps W T₂ v₂ c₂) (hs : S₃.Keeps W T₃ v₃ c₃)
    (hrule : ∀ {Θ t m b s}, Derives Θ t (.element wt S) → Derives Θ m (.element c₁ S₁) →
      Derives Θ b (.element c₂ S₂) → Derives Θ s (.element c₃ S₃) →
      Derives Θ (.quaternary o.operator t m b s) (.element w R)) :
    (Neutral.induct o stuck ⟨T₁, v₁⟩ ⟨T₂, v₂⟩ ⟨T₃, v₃⟩).ReadsAs W R w := by
  refine readsAs_of_succ fun hΘ hnames ht => ?_
  rw [Neutral.readBack] at ht
  obtain ⟨tt, htt, ht⟩ := bind_eq_ok_iff.1 ht
  obtain ⟨mt, hmt, ht⟩ := bind_eq_ok_iff.1 ht
  obtain ⟨bt, hbt, ht⟩ := bind_eq_ok_iff.1 ht
  obtain ⟨st, hst, ⟨⟩⟩ := bind_eq_ok_iff.1 ht
  exact hrule (hstuck _ _ _ _ _ hΘ hnames htt) (hm.reify hΘ hnames hmt) (hb.reify hΘ hnames hbt)
    (hs.reify hΘ hnames hst)

theorem readsAs_transLeft {l m r u : Value} (hstuck : stuck.ReadsAs W (equal A l m) w)
    (hright : (equal A m r).Keeps W T v u) :
    (Neutral.transLeft stuck ⟨T, v⟩).ReadsAs W (equal A l r) w := by
  refine readsAs_of_succ fun hΘ hnames ht => ?_
  rw [Neutral.readBack] at ht
  obtain ⟨lt, hlt, ht⟩ := bind_eq_ok_iff.1 ht
  obtain ⟨rt, hrt, ⟨⟩⟩ := bind_eq_ok_iff.1 ht
  exact .trans (hstuck _ _ _ _ _ hΘ hnames hlt) (hright.reify hΘ hnames hrt)

theorem readsAs_transRight {l m r w' : Value} (hleft : (equal A l m).Keeps W T v w)
    (hstuck : stuck.ReadsAs W (equal A m r) w') :
    (Neutral.transRight ⟨T, v⟩ stuck).ReadsAs W (equal A l r) w := by
  refine readsAs_of_succ fun hΘ hnames ht => ?_
  rw [Neutral.readBack] at ht
  obtain ⟨lt, hlt, ht⟩ := bind_eq_ok_iff.1 ht
  obtain ⟨rt, hrt, ⟨⟩⟩ := bind_eq_ok_iff.1 ht
  exact .trans (hleft.reify hΘ hnames hlt) (hstuck _ _ _ _ _ hΘ hnames hrt)

theorem readsAs_transBoth {l m r w' : Value} (hleft : stuck.ReadsAs W (equal A l m) w)
    (hright : stuck'.ReadsAs W (equal A m r) w') :
    (Neutral.transBoth stuck stuck').ReadsAs W (equal A l r) w := by
  refine readsAs_of_succ fun hΘ hnames ht => ?_
  rw [Neutral.readBack] at ht
  obtain ⟨lt, hlt, ht⟩ := bind_eq_ok_iff.1 ht
  obtain ⟨rt, hrt, ⟨⟩⟩ := bind_eq_ok_iff.1 ht
  exact .trans (hleft _ _ _ _ _ hΘ hnames hlt) (hright _ _ _ _ _ hΘ hnames hrt)

theorem readsAs_indVecTarget {n as : Value} {P : Value → Value → Code} (hl : nat.Keeps W T v n)
    (hstuck : stuck.ReadsAs W (vec A n) as)
    (hm : (quant .pi nat fun k => arrow (vec A k) univ).Keeps W T₁ v₁ c₁)
    (hP : VecMotive c₁ A P) (hb : (P .zero (.const .vecnil)).Keeps W T₂ v₂ c₂)
    (hs : (vecStep A P).Keeps W T₃ v₃ c₃) (hw : VecRec c₂ c₃ n as w) :
    (Neutral.indVecTarget ⟨T, v⟩ stuck ⟨T₁, v₁⟩ ⟨T₂, v₂⟩ ⟨T₃, v₃⟩).ReadsAs W (P n as) w := by
  refine readsAs_of_succ fun hΘ hnames ht => ?_
  rw [Neutral.readBack] at ht
  obtain ⟨lt, hlt, ht⟩ := bind_eq_ok_iff.1 ht
  obtain ⟨tt, htt, ht⟩ := bind_eq_ok_iff.1 ht
  obtain ⟨mt, hmt, ht⟩ := bind_eq_ok_iff.1 ht
  obtain ⟨bt, hbt, ht⟩ := bind_eq_ok_iff.1 ht
  obtain ⟨st, hst, ⟨⟩⟩ := bind_eq_ok_iff.1 ht
  exact .indVec (hl.reify hΘ hnames hlt) (hstuck _ _ _ _ _ hΘ hnames htt)
    (hm.reify hΘ hnames hmt) hP (hb.reify hΘ hnames hbt) (hs.reify hΘ hnames hst) hw

theorem readsAs_indVecBoth {n as : Value} {P : Value → Value → Code}
    (hl : stuck'.ReadsAs W nat n) (hstuck : stuck.ReadsAs W (vec A n) as)
    (hm : (quant .pi nat fun k => arrow (vec A k) univ).Keeps W T₁ v₁ c₁)
    (hP : VecMotive c₁ A P) (hb : (P .zero (.const .vecnil)).Keeps W T₂ v₂ c₂)
    (hs : (vecStep A P).Keeps W T₃ v₃ c₃) (hw : VecRec c₂ c₃ n as w) :
    (Neutral.indVecBoth stuck' stuck ⟨T₁, v₁⟩ ⟨T₂, v₂⟩ ⟨T₃, v₃⟩).ReadsAs W (P n as) w := by
  refine readsAs_of_succ fun hΘ hnames ht => ?_
  rw [Neutral.readBack] at ht
  obtain ⟨lt, hlt, ht⟩ := bind_eq_ok_iff.1 ht
  obtain ⟨tt, htt, ht⟩ := bind_eq_ok_iff.1 ht
  obtain ⟨mt, hmt, ht⟩ := bind_eq_ok_iff.1 ht
  obtain ⟨bt, hbt, ht⟩ := bind_eq_ok_iff.1 ht
  obtain ⟨st, hst, ⟨⟩⟩ := bind_eq_ok_iff.1 ht
  exact .indVec (hl _ _ _ _ _ hΘ hnames hlt) (hstuck _ _ _ _ _ hΘ hnames htt)
    (hm.reify hΘ hnames hmt) hP (hb.reify hΘ hnames hbt) (hs.reify hΘ hnames hst) hw

end Reading

/-! ## Numbers -/

section Nat

variable {strategy : Strategy} {fuel : Nat} {T b s v n wb ws w r p : Value}

theorem represents_zero : nat.Represents W .zero .zero := NatForm.zero rfl

theorem represents_add1 (h : nat.Represents W p n) : nat.Represents W (.add1 p) (.add1 n) :=
  NatForm.add1 rfl h

/-- Applying a function that represents one. -/
theorem Represents.apply {f a c : Value} (h : (quant .pi A F).Represents W f w)
    (ha : A.Represents W a c) (hr : f.apply strategy fuel a = .ok r) {s : Value}
    (hs : w.Applies c s) : (F c).Represents W r s := by
  obtain ⟨s', hs', hrs⟩ := (represents_pi_iff.1 h).2 W a c (.refl W) ha strategy fuel r hr
  obtain rfl := hs'.unique hs
  exact hrs

/-- The type that a motive gives for an argument. -/
theorem Represents.motive {m wm a c : Value} (hm : (arrow A univ).Represents W m wm)
    (hP : Motive wm A P) {W' : Instance} (hW : W.Sub W') (ha : A.Represents W' a c)
    (hT : m.apply strategy fuel a = .ok T) :
    (P c).RepresentsType W' T := by
  obtain ⟨C, hC, hTC⟩ := (represents_pi_iff.1 hm).2 W' a c hW ha strategy fuel T hT
  obtain ⟨S, -, hS, hSC⟩ := represents_univ_iff.1 hTC
  obtain ⟨C', _, hC', _, hPC, -⟩ := hP c c ha.relates
  obtain rfl := hC.unique hC'
  exact hS.conv ⟨C, hSC, hPC⟩

theorem keeps_motive {m wm : Value} (hA : A.Denoted) (hT : A.RepresentsType W T)
    (hm : (arrow A univ).Represents W m wm) : (arrow A univ).Keeps W (.motiveType T) m wm :=
  ⟨denoted_arrow hA denoted_univ,
    representsType_arrow hT (representsType_const (c := .univ) rfl), hm⟩

theorem represents_whichNat (hn : nat.Represents W v n) (hb : R.Keeps W T b wb)
    (hs : (arrow nat R).Represents W s ws)
    (hr : v.whichNat ⟨Value.apply strategy fuel, Closure.run strategy fuel⟩ T b s = .ok r)
    (hw : NatCase wb ws n w) :
    R.Represents W r w := by
  have hww := natCase_self hb.value.relates hs.relates hn.relates.2 hw
  obtain ⟨u, hu, hr⟩ := bind_eq_ok_iff.1 hr
  change NatForm _ v n at hn
  cases hn with
  | zero h =>
    cases h.symm.trans hu
    cases hr
    cases hw
    exact hb.value
  | add1 h hp =>
    cases h.symm.trans hu
    cases hw with
    | add1 hw => exact hs.apply hp hr hw
  | blocked h =>
    obtain ⟨-, ⟨_, h⟩ | ⟨ty, stuck, h, -, hstuck⟩⟩ := h <;> cases h.symm.trans hu
    cases hr
    refine represents_neutral hb.denoted hb.type hww
      (readsAs_recursor hstuck hb ⟨?_, ?_, hs⟩ ?_)
    · exact denoted_arrow denoted_nat hb.denoted
    · exact representsType_arrow (representsType_const (c := .nat) rfl) hb.type
    · exact fun ht hty hb hs => .whichNat ht hty hb hs hw

theorem represents_iterNat (hn : nat.Represents W v n) (hb : R.Keeps W T b wb)
    (hs : (arrow R R).Represents W s ws) {depth : Nat}
    (hr : iterNat ⟨Value.apply strategy fuel, Closure.run strategy fuel⟩ T b s depth v = .ok r)
    (hw : NatIter wb ws n w) : R.Represents W r w := by
  change NatForm _ v n at hn
  induction hn generalizing depth r w with
  | zero h =>
    obtain _ | depth := depth
    · cases hr
    obtain ⟨u, hu, hr⟩ := bind_eq_ok_iff.1 hr
    cases h.symm.trans hu
    cases hr
    cases hw
    exact hb.value
  | add1 h hp ih =>
    obtain _ | depth := depth
    · cases hr
    obtain ⟨u, hu, hr⟩ := bind_eq_ok_iff.1 hr
    cases h.symm.trans hu
    obtain ⟨r', hr', hr⟩ := bind_eq_ok_iff.1 hr
    cases hw with
    | add1 hn hw => exact hs.apply (ih hr' hn) hr hw
  | blocked h =>
    obtain _ | depth := depth
    · cases hr
    have hww := natIter_self hb.value.relates hs.relates h.1.2 hw
    obtain ⟨u, hu, hr⟩ := bind_eq_ok_iff.1 hr
    obtain ⟨-, ⟨_, h⟩ | ⟨ty, stuck, h, -, hstuck⟩⟩ := h <;> cases h.symm.trans hu
    cases hr
    refine represents_neutral hb.denoted hb.type hww
      (readsAs_recursor hstuck hb ⟨?_, ?_, hs⟩ ?_)
    · exact denoted_arrow hb.denoted hb.denoted
    · exact representsType_arrow hb.type hb.type
    · exact fun ht hty hb hs => .iterNat ht hty hb hs hw

theorem represents_recNat (hn : nat.Represents W v n) (hb : R.Keeps W T b wb)
    (hs : (natStep fun _ => R).Represents W s ws) {depth : Nat}
    (hr : recNat ⟨Value.apply strategy fuel, Closure.run strategy fuel⟩ T b s depth v = .ok r)
    (hw : NatRec wb ws n w) : R.Represents W r w := by
  change NatForm _ v n at hn
  induction hn generalizing depth r w with
  | zero h =>
    obtain _ | depth := depth
    · cases hr
    obtain ⟨u, hu, hr⟩ := bind_eq_ok_iff.1 hr
    cases h.symm.trans hu
    cases hr
    cases hw
    exact hb.value
  | add1 h hp ih =>
    obtain _ | depth := depth
    · cases hr
    obtain ⟨u, hu, hr⟩ := bind_eq_ok_iff.1 hr
    cases h.symm.trans hu
    obtain ⟨r', hr', hr⟩ := bind_eq_ok_iff.1 hr
    obtain ⟨f, hf, hr⟩ := bind_eq_ok_iff.1 hr
    cases hw with
    | add1 hn hws hw => exact (hs.apply hp hf hws).apply (ih hr' hn) hr hw
  | blocked h =>
    obtain _ | depth := depth
    · cases hr
    have hww := natRec_self (P := fun _ => R) hb.value.relates hs.relates h.1.2 hw
    obtain ⟨u, hu, hr⟩ := bind_eq_ok_iff.1 hr
    obtain ⟨-, ⟨_, h⟩ | ⟨ty, stuck, h, -, hstuck⟩⟩ := h <;> cases h.symm.trans hu
    cases hr
    refine represents_neutral hb.denoted hb.type hww
      (readsAs_recursor hstuck hb ⟨?_, ?_, hs⟩ ?_)
    · exact denoted_arrow denoted_nat (denoted_arrow hb.denoted hb.denoted)
    · exact representsType_arrow (representsType_const (c := .nat) rfl)
        (representsType_arrow hb.type hb.type)
    · exact fun ht hty hb hs => .recNat ht hty hb hs hw

/-- The type of the step of an induction over numbers. -/
theorem representsType_natStep {m wm : Value} (hm : (arrow nat univ).Represents W m wm)
    (hP : Motive wm nat P) :
    (natStep P).RepresentsType W (.indNatStepType m) := by
  refine representsType_quant (representsType_const (c := .nat) rfl)
    fun W' a c hW ha strategy fuel T hT => ?_
  obtain _ | fuel := fuel
  · cases hT
  obtain ⟨h, hh, hT⟩ := bind_eq_ok_iff.1 hT
  obtain ⟨r, hr, ⟨⟩⟩ := bind_eq_ok_iff.1 hT
  exact representsType_arrow (hm.motive hP hW ha hh) (hm.motive hP hW (represents_add1 ha) hr)

theorem represents_indNat {m wm : Value} (hn : nat.Represents W v n)
    (hm : (arrow nat univ).Represents W m wm) (hP : Motive wm nat P)
    (hb : (P .zero).Represents W b wb) (hs : (natStep P).Represents W s ws)
    (hstep : (natStep P).Denoted) {depth : Nat}
    (hr : indNat ⟨Value.apply strategy fuel, Closure.run strategy fuel⟩ m b s depth v = .ok r)
    (hw : NatRec wb ws n w) : (P n).Represents W r w := by
  have hagree : ∀ {n}, n.IsNumeral → (P n).Agree (P n) :=
    fun hn => hP.agree denoted_nat ⟨rfl, hn⟩
  change NatForm _ v n at hn
  induction hn generalizing depth r w with
  | zero h =>
    obtain _ | depth := depth
    · cases hr
    obtain ⟨u, hu, hr⟩ := bind_eq_ok_iff.1 hr
    cases h.symm.trans hu
    cases hr
    cases hw
    exact hb
  | add1 h hp ih =>
    obtain _ | depth := depth
    · cases hr
    obtain ⟨u, hu, hr⟩ := bind_eq_ok_iff.1 hr
    cases h.symm.trans hu
    obtain ⟨r', hr', hr⟩ := bind_eq_ok_iff.1 hr
    obtain ⟨f, hf, hr⟩ := bind_eq_ok_iff.1 hr
    cases hw with
    | add1 hn hws hw => exact (hs.apply hp hf hws).apply (ih hr' hn) hr hw
  | blocked h =>
    obtain _ | depth := depth
    · cases hr
    have hww := natRec_self hb.relates hs.relates h.1.2 hw
    have hn : nat.Represents W _ _ := NatForm.blocked h
    have hdenoted := (hagree h.1.2).left
    obtain ⟨u, hu, hr⟩ := bind_eq_ok_iff.1 hr
    obtain ⟨-, ⟨_, h⟩ | ⟨ty, stuck, h, -, hstuck⟩⟩ := h <;> cases h.symm.trans hu
    obtain ⟨ty, hty, hr⟩ := bind_eq_ok_iff.1 hr
    obtain ⟨baseType, hbaseType, ⟨⟩⟩ := bind_eq_ok_iff.1 hr
    refine represents_neutral hdenoted (hm.motive hP (.refl W) hn hty) hww
      (readsAs_induct hstuck (keeps_motive denoted_nat
        (representsType_const (c := .nat) rfl) hm)
      ⟨(hagree .zero).left, hm.motive hP (.refl W) represents_zero hbaseType, hb⟩
      ⟨hstep, representsType_natStep hm hP, hs⟩ fun ht hm hb hs => .indNat ht hm hP hb hs hw)

end Nat

/-! ## Lists -/

section List

variable {strategy : Strategy} {fuel depth : Nat} {T b s v as wb ws w r m wm : Value}

theorem represents_recList (hv : (list A).Represents W v as) (hA : A.Denoted)
    (hb : R.Keeps W T b wb) (hs : (listStep A fun _ => R).Represents W s ws)
    (hr : recList ⟨Value.apply strategy fuel, Closure.run strategy fuel⟩ T b s depth v = .ok r)
    (hw : ListRec wb ws as w) : R.Represents W r w := by
  change ListForm _ _ v as at hv
  induction hv generalizing depth r w with
  | nil h =>
    obtain _ | depth := depth
    · cases hr
    obtain ⟨u, hu, hr⟩ := bind_eq_ok_iff.1 hr
    cases h.symm.trans hu
    cases hr
    cases hw
    exact hb.value
  | cons h ha has ih =>
    obtain _ | depth := depth
    · cases hr
    obtain ⟨u, hu, hr⟩ := bind_eq_ok_iff.1 hr
    cases h.symm.trans hu
    obtain ⟨r', hr', hr⟩ := bind_eq_ok_iff.1 hr
    obtain ⟨f, hf, hr⟩ := bind_eq_ok_iff.1 hr
    obtain ⟨g, hg, hr⟩ := bind_eq_ok_iff.1 hr
    cases hw with
    | cons hrec hws hws' hw =>
      exact ((hs.apply ha hf hws).apply has hg hws').apply (ih hr' hrec) hr hw
  | blocked h =>
    obtain _ | depth := depth
    · cases hr
    have hww := listRec_self (P := fun _ => R) hb.value.relates hs.relates h.1 hw
    obtain ⟨u, hu, hr⟩ := bind_eq_ok_iff.1 hr
    obtain ⟨-, ⟨_, h⟩ | ⟨ty, stuck, h, htyped, hstuck⟩⟩ := h <;> cases h.symm.trans hu
    obtain ⟨ty', hty', hr⟩ := bind_eq_ok_iff.1 hr
    split at hr
    · cases hr
      have hentry := htyped _ hty'
      refine represents_neutral hb.denoted hb.type hww
        (readsAs_recursor hstuck hb ⟨?_, ?_, hs⟩ ?_)
      · exact denoted_arrow hA (denoted_arrow (denoted_list hA)
          (denoted_arrow hb.denoted hb.denoted))
      · exact representsType_arrow hentry (representsType_arrow (representsType_list hentry)
          (representsType_arrow hb.type hb.type))
      · exact fun ht hty hb hs => .recList ht hty hb hs hw
    · cases hr

/-- The type of the step of an induction over lists. -/
theorem representsType_listStep {entry : Value} (hentry : A.RepresentsType W entry)
    (hm : (arrow (list A) univ).Represents W m wm) (hP : Motive wm (list A) P) :
    (listStep A P).RepresentsType W (.indListStepType entry m) := by
  refine representsType_quant hentry fun W₁ a c hW₁ ha strategy fuel T hT => ?_
  obtain _ | fuel := fuel
  · cases hT
  cases hT
  refine representsType_quant (representsType_list (hentry.mono hW₁))
    fun W₂ as cs hW₂ has strategy fuel T hT => ?_
  obtain _ | fuel := fuel
  · cases hT
  obtain ⟨h, hh, hT⟩ := bind_eq_ok_iff.1 hT
  obtain ⟨r, hr, ⟨⟩⟩ := bind_eq_ok_iff.1 hT
  have hcons : (list A).Represents W₂ (.listCons a as) (.listCons c cs) :=
    .cons rfl (ha.mono hW₂) has
  exact representsType_arrow (hm.motive hP (hW₁.trans hW₂) has hh)
    (hm.motive hP (hW₁.trans hW₂) hcons hr)

theorem represents_indList (hv : (list A).Represents W v as) (hA : A.Denoted)
    (hm : (arrow (list A) univ).Represents W m wm) (hP : Motive wm (list A) P)
    (hb : (P (.const .nil)).Represents W b wb) (hs : (listStep A P).Represents W s ws)
    (hstep : (listStep A P).Denoted)
    (hr : indList ⟨Value.apply strategy fuel, Closure.run strategy fuel⟩ m b s depth v = .ok r)
    (hw : ListRec wb ws as w) : (P as).Represents W r w := by
  have hnil : (list A).Represents W (.const .nil) (.const .nil) := .nil rfl
  change ListForm _ _ v as at hv
  induction hv generalizing depth r w with
  | nil h =>
    obtain _ | depth := depth
    · cases hr
    obtain ⟨u, hu, hr⟩ := bind_eq_ok_iff.1 hr
    cases h.symm.trans hu
    cases hr
    cases hw
    exact hb
  | cons h ha has ih =>
    obtain _ | depth := depth
    · cases hr
    obtain ⟨u, hu, hr⟩ := bind_eq_ok_iff.1 hr
    cases h.symm.trans hu
    obtain ⟨r', hr', hr⟩ := bind_eq_ok_iff.1 hr
    obtain ⟨f, hf, hr⟩ := bind_eq_ok_iff.1 hr
    obtain ⟨g, hg, hr⟩ := bind_eq_ok_iff.1 hr
    cases hw with
    | cons hrec hws hws' hw =>
      exact ((hs.apply ha hf hws).apply has hg hws').apply (ih hr' hrec) hr hw
  | blocked h =>
    obtain _ | depth := depth
    · cases hr
    have hww := listRec_self hb.relates hs.relates h.1 hw
    have hv : (list A).Represents W _ _ := .blocked h
    have hdenoted := (hP.agree (denoted_list hA) h.1).left
    obtain ⟨u, hu, hr⟩ := bind_eq_ok_iff.1 hr
    obtain ⟨-, ⟨_, h⟩ | ⟨ty, stuck, h, htyped, hstuck⟩⟩ := h <;> cases h.symm.trans hu
    obtain ⟨ty', hty', hr⟩ := bind_eq_ok_iff.1 hr
    split at hr
    · have hentry := htyped _ hty'
      obtain ⟨result, hresult, hr⟩ := bind_eq_ok_iff.1 hr
      obtain ⟨baseType, hbaseType, ⟨⟩⟩ := bind_eq_ok_iff.1 hr
      exact represents_neutral hdenoted (hm.motive hP (.refl W) hv hresult) hww
        (readsAs_induct hstuck (keeps_motive (denoted_list hA) (representsType_list hentry) hm)
        ⟨(hP.agree (denoted_list hA) hnil.relates).left,
          hm.motive hP (.refl W) hnil hbaseType, hb⟩
        ⟨hstep, representsType_listStep hentry hm hP, hs⟩ fun ht hm hb hs =>
          .indList ht hm hP hb hs hw)
    · cases hr

end List

/-! ## Sums -/

section Sum

variable {strategy : Strategy} {fuel : Nat}
  {v e l r wl wr w m wm result leftType rightType : Value}

/-- The type of a method for one side of a sum. -/
theorem representsType_indEitherMethod (side : Side) {ty : Value} (hA : S.RepresentsType W ty)
    (hm : (arrow (either A B) univ).Represents W m wm) (hP : Motive wm (either A B) P)
    (hinject : ∀ {W' a c}, S.Represents W' a c →
      (either A B).Represents W' (.inject side a) (.inject side c)) :
    (quant .pi S fun a => P (.inject side a)).RepresentsType W
    (.indEitherMethodType side ty m) := by
  refine representsType_quant hA fun W' a c hW ha strategy fuel T hT => ?_
  obtain _ | fuel := fuel
  · cases hT
  exact hm.motive hP hW (hinject ha) hT

theorem represents_indEither (hv : (either A B).Represents W v e) (hA : A.Denoted)
    (hB : B.Denoted) (hm : (arrow (either A B) univ).Represents W m wm)
    (hP : Motive wm (either A B) P)
    (hl : (quant .pi A fun a => P (.unary .left a)).Represents W l wl)
    (hr : (quant .pi B fun b => P (.unary .right b)).Represents W r wr)
    (hleft : (quant .pi A fun a => P (.unary .left a)).Denoted)
    (hright : (quant .pi B fun b => P (.unary .right b)).Denoted)
    (h : v.indEither ⟨Value.apply strategy fuel, Closure.run strategy fuel⟩ m l r = .ok result)
    (hw : SumCase wl wr e w) : (P e).Represents W result w := by
  have hww := sumCase_self hl.relates hr.relates hv.relates hw
  have hdenoted := (hP.agree (denoted_either hA hB) hv.relates).left
  obtain ⟨u, hu, h⟩ := bind_eq_ok_iff.1 h
  have htarget := hv
  change SumForm _ _ _ v e at hv
  cases hv with
  | left h' ha =>
    cases h'.symm.trans hu
    cases hw with
    | left hw => exact hl.apply ha h hw
  | right h' ha =>
    cases h'.symm.trans hu
    cases hw with
    | right hw => exact hr.apply ha h hw
  | blocked h' =>
    obtain ⟨-, ⟨_, h'⟩ | ⟨ty, stuck, h', htyped, hstuck⟩⟩ := h' <;> cases h'.symm.trans hu
    obtain ⟨ty', hty', h⟩ := bind_eq_ok_iff.1 h
    split at h
    · obtain ⟨hlt, hrt⟩ := htyped _ _ hty'
      obtain ⟨result, hresult, ⟨⟩⟩ := bind_eq_ok_iff.1 h
      refine represents_neutral hdenoted (hm.motive hP (.refl W) htarget hresult) hww
        (readsAs_induct hstuck (keeps_motive (denoted_either hA hB)
          (representsType_either hlt hrt) hm) ⟨hleft, ?_, hl⟩ ⟨hright, ?_, hr⟩
        fun ht hm hl hr => .indEither ht hm hP hl hr hw)
      · exact representsType_indEitherMethod .left hlt hm hP fun ha => .left rfl ha
      · exact representsType_indEitherMethod .right hrt hm hP fun ha => .right rfl ha
    · cases h

end Sum

/-! ## Lists of known length -/

section Vec

variable {strategy strategy' : Strategy} {fuel fuel' depth : Nat}
  {T b s v l n as c cs wb ws w r m wm entry : Value}
variable {P : Value → Value → Code}

theorem represents_head (hv : (vec A (.add1 n)).Represents W v (.vecCons c cs)) (hA : A.Denoted)
    (hr : v.head = .ok r) : A.Represents W r c := by
  have hrelates := hv.relates
  obtain ⟨u, hu, hr⟩ := bind_eq_ok_iff.1 hr
  change VecForm _ _ _ v _ at hv
  cases hv with
  | cons h ha _ =>
    cases h.symm.trans hu
    cases hr
    exact ha
  | blocked h =>
    obtain ⟨-, ⟨_, h⟩ | ⟨ty, stuck, h, htyped, hstuck⟩⟩ := h <;> cases h.symm.trans hu
    obtain ⟨ty', hty', hr⟩ := bind_eq_ok_iff.1 hr
    split at hr
    · cases hr
      cases hrelates with
      | cons hc _ =>
        exact represents_neutral hA (htyped _ _ hty').1 hc
          (readsAs_project (o := .head) hstuck .head)
    · cases hr

theorem represents_tail (hv : (vec A (.add1 n)).Represents W v (.vecCons c cs)) (hA : A.Denoted)
    (hr : v.tail = .ok r) : (vec A n).Represents W r cs := by
  have hrelates := hv.relates
  obtain ⟨u, hu, hr⟩ := bind_eq_ok_iff.1 hr
  change VecForm _ _ _ v _ at hv
  cases hv with
  | cons h _ has =>
    cases h.symm.trans hu
    cases hr
    exact has
  | blocked h =>
    obtain ⟨-, ⟨_, h⟩ | ⟨ty, stuck, h, htyped, hstuck⟩⟩ := h <;> cases h.symm.trans hu
    obtain ⟨ty', hty', hr⟩ := bind_eq_ok_iff.1 hr
    split at hr
    · obtain ⟨length, hlength, hr⟩ := bind_eq_ok_iff.1 hr
      split at hr
      · cases hr
        obtain ⟨hentry, hl⟩ := htyped _ _ hty'
        have hp := isNumber_pred hl hlength
        cases hrelates with
        | cons _ hcs =>
          exact represents_neutral (denoted_vec hA hp.relates.2)
            (representsType_vec hentry hp) hcs (readsAs_project (o := .tail) hstuck .tail)
      · cases hr
    · cases hr

/-- The type that a motive gives for a length and a list. -/
theorem Represents.vecMotive {f a : Value}
    (hm : (quant .pi nat fun k => arrow (vec A k) univ).Represents W m wm)
    (hP : VecMotive wm A P) {W' : Instance} (hW : W.Sub W') (hl : nat.Represents W' l n)
    (ha : (vec A n).Represents W' a c) (hf : m.apply strategy fuel l = .ok f)
    (hT : f.apply strategy' fuel' a = .ok T) : (P n c).RepresentsType W' T := by
  obtain ⟨g, hg, hmotive⟩ := hP n hl.relates.2
  exact ((hm.mono hW).apply hl hf hg).motive hmotive (.refl W') ha hT

theorem representsType_vecMotive (hentry : A.RepresentsType W entry) :
    (quant .pi nat fun k => arrow (vec A k) univ).RepresentsType W
    (.indVecMotiveType entry) := by
  refine representsType_quant (representsType_const (c := .nat) rfl)
    fun W' a c hW ha strategy fuel T hT => ?_
  obtain _ | fuel := fuel
  · cases hT
  cases hT
  exact representsType_arrow (representsType_vec (hentry.mono hW) ha)
    (representsType_const (c := .univ) rfl)

/-- The type of the step of an induction over lists of known length. -/
theorem representsType_vecStep (hentry : A.RepresentsType W entry)
    (hm : (quant .pi nat fun k => arrow (vec A k) univ).Represents W m wm)
    (hP : VecMotive wm A P) :
    (vecStep A P).RepresentsType W (.indVecStepType entry m) := by
  refine representsType_quant (representsType_const (c := .nat) rfl)
    fun W₁ l n hW₁ hl strategy fuel T hT => ?_
  obtain _ | fuel := fuel
  · cases hT
  cases hT
  refine representsType_quant (hentry.mono hW₁) fun W₂ a c hW₂ ha strategy fuel T hT => ?_
  obtain _ | fuel := fuel
  · cases hT
  cases hT
  have hW := hW₁.trans hW₂
  refine representsType_quant (representsType_vec (hentry.mono hW) (hl.mono hW₂))
    fun W₃ as cs hW₃ has _ fuel T hT => ?_
  obtain _ | fuel := fuel
  · cases hT
  obtain ⟨f, hf, hT⟩ := bind_eq_ok_iff.1 hT
  obtain ⟨h, hh, hT⟩ := bind_eq_ok_iff.1 hT
  obtain ⟨g, hg, hT⟩ := bind_eq_ok_iff.1 hT
  obtain ⟨r, hr, ⟨⟩⟩ := bind_eq_ok_iff.1 hT
  have hl := hl.mono (hW₂.trans hW₃)
  have hcons : (vec A (.add1 n)).Represents W₃ (.vecCons a as) (.vecCons c cs) :=
    .cons rfl (ha.mono hW₃) has
  exact representsType_arrow (hm.vecMotive hP (hW.trans hW₃) hl has hf hh)
    (hm.vecMotive hP (hW.trans hW₃) (represents_add1 hl) hcons hg hr)

/-- An induction over a list of known length that is stuck, with a length that is not
delayed. -/
theorem represents_indVecStuck {stuck : Neutral} {ty : Value} (hv : (vec A n).Represents W v as)
    (hA : A.Denoted) (hl : nat.Represents W l n)
    (hm : (quant .pi nat fun k => arrow (vec A k) univ).Represents W m wm)
    (hP : VecMotive wm A P) (hb : (P .zero (.const .vecnil)).Represents W b wb)
    (hs : (vecStep A P).Represents W s ws) (hstep : (vecStep A P).Denoted)
    (hlnow : l.now = .ok l) (htyped : ∀ e l, ty.now = .ok (.vec e l) → A.RepresentsType W e)
    (hstuck : stuck.ReadsAs W (vec A n) as)
    (hr : indVecStuck ⟨Value.apply strategy fuel, Closure.run strategy fuel⟩ m b s l v ty
      stuck = .ok r) (hw : VecRec wb ws n as w) : (P n as).Represents W r w := by
  have hnil : (vec A .zero).Represents W (.const .vecnil) (.const .vecnil) := .nil rfl
  have hdenoted : ∀ {n as}, n.IsNumeral → (vec A n).Relates as as → (P n as).Denoted := by
    intro n as hn has
    obtain ⟨f, -, hf⟩ := hP n hn
    exact (hf.agree (denoted_vec hA hn) has).left
  have hww := vecRec_self hb.relates hs.relates hl.relates.2 hv.relates hw
  obtain ⟨ty', hty', hr⟩ := bind_eq_ok_iff.1 hr
  split at hr
  · have hentry := htyped _ _ hty'
    obtain ⟨f, hf, hr⟩ := bind_eq_ok_iff.1 hr
    obtain ⟨result, hresult, hr⟩ := bind_eq_ok_iff.1 hr
    obtain ⟨g, hg, hr⟩ := bind_eq_ok_iff.1 hr
    obtain ⟨baseType, hbaseType, hr⟩ := bind_eq_ok_iff.1 hr
    have hresultType := hm.vecMotive hP (.refl W) hl hv hf hresult
    have hmotive : Keeps _ W _ m wm :=
      ⟨denoted_vecMotive hA, representsType_vecMotive hentry, hm⟩
    have hbase : Keeps _ W _ b wb :=
      ⟨hdenoted .zero hnil.relates,
        hm.vecMotive hP (.refl W) represents_zero hnil hg hbaseType, hb⟩
    have hstep : Keeps _ W _ s ws := ⟨hstep, representsType_vecStep hentry hm hP, hs⟩
    split at hr
    · cases hr
      exact represents_neutral (hdenoted hl.relates.2 hv.relates) hresultType hww
        (readsAs_indVecBoth (hl.readsAs hlnow) hstuck hmotive hP hbase hstep hw)
    · cases hr
      exact represents_neutral (hdenoted hl.relates.2 hv.relates) hresultType hww
        (readsAs_indVecTarget ⟨denoted_nat, representsType_const (c := .nat) rfl, hl⟩ hstuck
          hmotive hP hbase hstep hw)
  · cases hr

theorem represents_indVec (hv : (vec A n).Represents W v as) (hA : A.Denoted)
    (hl : nat.Represents W l n)
    (hm : (quant .pi nat fun k => arrow (vec A k) univ).Represents W m wm)
    (hP : VecMotive wm A P)
    (hb : (P .zero (.const .vecnil)).Represents W b wb) (hs : (vecStep A P).Represents W s ws)
    (hstep : (vecStep A P).Denoted)
    (hr : indVec ⟨Value.apply strategy fuel, Closure.run strategy fuel⟩ m b s depth l v = .ok r)
    (hw : VecRec wb ws n as w) : (P n as).Represents W r w := by
  change VecForm _ _ n v as at hv
  induction hv generalizing depth l r w with
  | nil h =>
    obtain _ | depth := depth
    · cases hr
    obtain ⟨ul, hul, hr⟩ := bind_eq_ok_iff.1 hr
    obtain ⟨u, hu, hr⟩ := bind_eq_ok_iff.1 hr
    cases h.symm.trans hu
    cases hr
    cases hw
    exact hb
  | cons h ha has ih =>
    obtain _ | depth := depth
    · cases hr
    obtain ⟨ul, hul, hr⟩ := bind_eq_ok_iff.1 hr
    obtain ⟨u, hu, hr⟩ := bind_eq_ok_iff.1 hr
    cases h.symm.trans hu
    change NatForm _ l _ at hl
    cases hl with
    | add1 hl hp =>
      cases hl.symm.trans hul
      obtain ⟨r', hr', hr⟩ := bind_eq_ok_iff.1 hr
      obtain ⟨f₁, hf₁, hr⟩ := bind_eq_ok_iff.1 hr
      obtain ⟨f₂, hf₂, hr⟩ := bind_eq_ok_iff.1 hr
      obtain ⟨f₃, hf₃, hr⟩ := bind_eq_ok_iff.1 hr
      cases hw with
      | cons hrec h₁ h₂ h₃ hw =>
        exact (((hs.apply hp hf₁ h₁).apply ha hf₂ h₂).apply has hf₃ h₃).apply
          (ih hp hr' hrec) hr hw
    | blocked hl =>
      obtain ⟨-, ⟨_, hl⟩ | ⟨_, _, hl, -⟩⟩ := hl <;> cases hl.symm.trans hul
      cases hr
  | blocked h =>
    obtain _ | depth := depth
    · cases hr
    have hv : (vec A _).Represents W _ _ := VecForm.blocked h
    obtain ⟨ul, hul, hr⟩ := bind_eq_ok_iff.1 hr
    obtain ⟨u, hu, hr⟩ := bind_eq_ok_iff.1 hr
    obtain ⟨-, ⟨_, h⟩ | ⟨ty, stuck, h, htyped, hstuck⟩⟩ := h <;> cases h.symm.trans hu
    exact represents_indVecStuck hv hA (hl.forced hul) hm hP hb hs hstep (hl.settled hul)
      (fun e l h => (htyped e l h).1) hstuck hr hw

end Vec

/-! ## Equality -/

section Equal

variable {strategy : Strategy} {fuel : Nat} {T v v' l r w w' m wm b wb u p c : Value}

/-- A reflexive equality of an element that equals both sides. -/
theorem represents_same (hp : A.Represents W p c) (hl : A.Relates c l) (hlr : A.Relates l r) :
    (equal A l r).Represents W (.same p) (.same c) :=
  represents_equal_iff.2 (.inl ⟨p, c, rfl, rfl, hp, hl, hlr⟩)

/-- The two sides of an equality that has an element are equal. -/
theorem Represents.sides (hv : (equal A l r).Represents W v w) : A.Relates l r := by
  obtain ⟨_, _, -, -, -, -, hlr⟩ := hv.relates
  exact hlr

theorem represents_symm (hv : (equal A l r).Represents W v w) (hA : A.Denoted)
    (hu : v.symm = .ok u) :
    (equal A r l).Represents W u w := by
  have hE := hA.equivalence
  have hlr := hv.sides
  have hrefl : (equal A r l).Relates w w := by
    obtain ⟨p, _, rfl, -, hp, -, -⟩ := hv.relates
    exact ⟨p, p, rfl, rfl, hE.trans hp hlr, hE.trans hp hlr, hE.symm hlr⟩
  obtain ⟨v', hv', hu⟩ := bind_eq_ok_iff.1 hu
  obtain ⟨p, c, h, hw, hpc, hc, -⟩ | h := represents_equal_iff.1 hv
  · cases h.symm.trans hv'
    cases hu
    exact hw ▸ represents_same hpc (hE.trans hc hlr) (hE.symm hlr)
  · obtain ⟨-, ⟨_, h⟩ | ⟨ty, stuck, h, htyped, hstuck⟩⟩ := h <;> cases h.symm.trans hv'
    obtain ⟨ty', hty', hu⟩ := bind_eq_ok_iff.1 hu
    split at hu
    · cases hu
      obtain ⟨hs, hl', hr'⟩ := htyped _ _ _ hty'
      exact represents_neutral (agree_equal hA (hE.right hlr) (hE.left hlr)).left
        (representsType_equal hs hr' hl')
        hrefl (readsAs_project (o := .symm) hstuck .symm)
    · cases hu

theorem represents_trans {k : Value} (hv : (equal A l k).Represents W v w)
    (hv' : (equal A k r).Represents W v' w') (hA : A.Denoted) (hu : v.trans v' = .ok u) :
    (equal A l r).Represents W u w := by
  have hE := hA.equivalence
  have hlk := hv.sides
  have hkr := hv'.sides
  have hlr := hE.trans hlk hkr
  have hdenoted := (agree_equal hA (hE.left hlr) (hE.right hlr)).left
  have hw : (equal A l r).Relates w w := by
    obtain ⟨p, _, rfl, heq, hp, -, -⟩ := hv.relates
    exact ⟨p, p, rfl, rfl, hp, hp, hlr⟩
  obtain ⟨uv, huv, hu⟩ := bind_eq_ok_iff.1 hu
  obtain ⟨uv', huv', hu⟩ := bind_eq_ok_iff.1 hu
  obtain ⟨p, c, h, rfl, hpc, hc, -⟩ | h := represents_equal_iff.1 hv
  · cases h.symm.trans huv
    obtain ⟨p', c', h', rfl, -, -, -⟩ | h' := represents_equal_iff.1 hv'
    · cases h'.symm.trans huv'
      cases hu
      exact represents_same hpc hc hlr
    · obtain ⟨-, ⟨_, h'⟩ | ⟨ty, stuck, h', htyped, hstuck⟩⟩ := h' <;> cases h'.symm.trans huv'
      obtain ⟨ty', hty', hu⟩ := bind_eq_ok_iff.1 hu
      split at hu
      · cases hu
        obtain ⟨hs, -, hr'⟩ := htyped _ _ _ hty'
        have hpl := hpc.rel hA hc
        refine represents_neutral hdenoted (representsType_equal hs hpl hr') hw
          (readsAs_transRight ⟨?_, ?_, ?_⟩ hstuck)
        · exact (agree_equal hA (hE.left hlk) (hE.right hlk)).left
        · exact representsType_equal hs hpl (hpl.rel hA hlk)
        · exact represents_same hpc hc hlk
      · cases hu
  · obtain ⟨-, ⟨_, h⟩ | ⟨ty, stuck, h, htyped, hstuck⟩⟩ := h <;> cases h.symm.trans huv
    obtain ⟨p', c', h', rfl, hpc', hc', -⟩ | h' := represents_equal_iff.1 hv'
    · cases h'.symm.trans huv'
      obtain ⟨ty', hty', hu⟩ := bind_eq_ok_iff.1 hu
      split at hu
      · cases hu
        obtain ⟨hs, hl', -⟩ := htyped _ _ _ hty'
        have hpk := hpc'.rel hA hc'
        have hpr := hpk.rel hA hkr
        refine represents_neutral hdenoted (representsType_equal hs hl' hpr) hw
          (readsAs_transLeft (u := .same c') hstuck ⟨?_, ?_, ?_⟩)
        · exact (agree_equal hA (hE.left hkr) (hE.right hkr)).left
        · exact representsType_equal hs hpk hpr
        · exact represents_same hpc' hc' hkr
      · cases hu
    · obtain ⟨-, ⟨_, h'⟩ | ⟨ty', stuck', h', htyped', hstuck'⟩⟩ :=
        h' <;> cases h'.symm.trans huv'
      obtain ⟨lt, hlt, hu⟩ := bind_eq_ok_iff.1 hu
      obtain ⟨rt, hrt, hu⟩ := bind_eq_ok_iff.1 hu
      split at hu
      · cases hu
        obtain ⟨hs, hl', -⟩ := htyped _ _ _ hlt
        obtain ⟨-, -, hr'⟩ := htyped' _ _ _ hrt
        exact represents_neutral hdenoted (representsType_equal hs hl' hr') hw
          (readsAs_transBoth hstuck hstuck')
      · cases hu

/-- A type that represents an element of the universe represents the type with any code of that
element. -/
theorem Represents.type_of_univ {C D : Value} (h : univ.Represents W T C)
    (hC : univ.Relates C D) (hR : R.Denotes D) :
    R.RepresentsType W T := by
  obtain ⟨S, -, hS, hSD⟩ := represents_univ_iff.1 (h.rel denoted_univ hC)
  exact hS.conv ⟨D, hSD, hR⟩

/-- The type that a motive gives for an argument that equals a given one. -/
theorem Represents.motive_at {a d C : Value} (hm : (arrow A univ).Represents W m wm)
    (ha : A.Represents W a c) (hcd : A.Relates c d) (hC : wm.Applies d C) (hR : R.Denotes C)
    (hT : m.apply strategy fuel a = .ok T) :
    R.RepresentsType W T := by
  obtain ⟨C₁, C₂, h₁, h₂, h⟩ := hm.relates c d hcd
  obtain rfl := h₂.unique hC
  exact (hm.apply ha hT h₁).type_of_univ h hR

theorem represents_replace {C : Value} (hv : (equal A l r).Represents W v w) (hA : A.Denoted)
    (hm : (arrow A univ).Represents W m wm) (hC : wm.Applies r C) (hR : R.Denotes C)
    (hb : R.Represents W b wb)
    (hu : v.replace ⟨Value.apply strategy fuel, Closure.run strategy fuel⟩ m b = .ok u) :
    R.Represents W u wb := by
  have hlr := hv.sides
  obtain ⟨uv, huv, hu⟩ := bind_eq_ok_iff.1 hu
  obtain ⟨p, c, h, -⟩ | h := represents_equal_iff.1 hv
  · cases h.symm.trans huv
    cases hu
    exact hb
  · obtain ⟨-, ⟨_, h⟩ | ⟨ty, stuck, h, htyped, hstuck⟩⟩ := h <;> cases h.symm.trans huv
    obtain ⟨ty', hty', hu⟩ := bind_eq_ok_iff.1 hu
    split at hu
    · obtain ⟨hs, hl', hr'⟩ := htyped _ _ _ hty'
      obtain ⟨result, hresult, hu⟩ := bind_eq_ok_iff.1 hu
      obtain ⟨baseType, hbaseType, ⟨⟩⟩ := bind_eq_ok_iff.1 hu
      refine represents_neutral ⟨C, hR⟩ (hm.motive_at hr' hr'.relates hC hR hresult) hb.relates
        (readsAs_transport hstuck (keeps_motive hA hs hm)
          ⟨⟨C, hR⟩, hm.motive_at hl' hlr hC hR hbaseType, hb⟩ ?_)
      exact fun ht hm hb => .replace ht hm hC hR hb
    · cases hu

/-- The type of the motive of an induction over equalities with a given left side. -/
theorem representsType_eqMotive {space a : Value} (hs : A.RepresentsType W space)
    (hl : A.Represents W a l) :
    (quant .pi A fun b => arrow (equal A l b) univ).RepresentsType W
    (.indEqMotiveType space a) := by
  refine representsType_quant hs fun W' b c hW hb strategy fuel T hT => ?_
  obtain _ | fuel := fuel
  · cases hT
  cases hT
  exact representsType_arrow (representsType_equal (hs.mono hW) (hl.mono hW) hb)
    (representsType_const (c := .univ) rfl)

theorem represents_indEq {C f : Value} (hv : (equal A l r).Represents W v w) (hA : A.Denoted)
    (hm : (quant .pi A fun b => arrow (equal A l b) univ).Represents W m wm)
    (hmotive : (quant .pi A fun b => arrow (equal A l b) univ).Denoted) (hf : wm.Applies r f)
    (hC : f.Applies w C) (hR : R.Denotes C) (hb : R.Represents W b wb)
    (hu : v.indEq ⟨Value.apply strategy fuel, Closure.run strategy fuel⟩ m b = .ok u) :
    R.Represents W u wb := by
  have hE := hA.equivalence
  have hlr := hv.sides
  obtain ⟨uv, huv, hu⟩ := bind_eq_ok_iff.1 hu
  obtain ⟨p, c, h, -⟩ | h := represents_equal_iff.1 hv
  · cases h.symm.trans huv
    cases hu
    exact hb
  · obtain ⟨-, ⟨_, h⟩ | ⟨ty, stuck, h, htyped, hstuck⟩⟩ := h <;> cases h.symm.trans huv
    obtain ⟨ty', hty', hu⟩ := bind_eq_ok_iff.1 hu
    split at hu
    · obtain ⟨hs, hl', hr'⟩ := htyped _ _ _ hty'
      obtain ⟨g, hg, hu⟩ := bind_eq_ok_iff.1 hu
      obtain ⟨baseType, hbaseType, hu⟩ := bind_eq_ok_iff.1 hu
      obtain ⟨g', hg', hu⟩ := bind_eq_ok_iff.1 hu
      obtain ⟨result, hresult, ⟨⟩⟩ := bind_eq_ok_iff.1 hu
      have hresultType := (hm.apply hr' hg' hf).motive_at hv hv.relates hC hR hresult
      -- At the left side the motive gives a type that equals the one at the right side.
      have hbaseTypes : R.RepresentsType W baseType := by
        obtain ⟨f₁, f₂, h₁, h₂, hff⟩ := hm.relates l r hlr
        obtain rfl := h₂.unique hf
        have hsame := represents_same hl' (hE.left hlr) (hE.left hlr)
        have hww : (equal A l l).Relates (.same l) w := by
          obtain ⟨q, _, rfl, -, hq, -, -⟩ := hv.relates
          exact ⟨l, q, rfl, rfl, hE.left hlr, hq, hE.left hlr⟩
        obtain ⟨C₁, C₂, hC₁, hC₂, hCC⟩ := hff _ _ hww
        obtain rfl := hC₂.unique hC
        exact ((hm.apply hl' hg h₁).apply hsame hbaseType hC₁).type_of_univ hCC hR
      exact represents_neutral ⟨C, hR⟩ hresultType hb.relates (readsAs_transport hstuck
        ⟨hmotive, representsType_eqMotive hs hl', hm⟩ ⟨⟨C, hR⟩, hbaseTypes, hb⟩
        fun ht hm hb => .indEq ht hm hf hC hR hb)
    · cases hu

/-- A function that takes what represents an element equal to `a` to what represents `s`. -/
def RepresentsNear (A : Code) (a : Value) (R : Code) (s : Value) (W : Instance)
    (f : Value) : Prop :=
  (∀ u, f.now = .ok u → u.now = .ok u) ∧
    ∀ W' b c, W.Sub W' → A.Represents W' b c → A.Relates c a →
      ∀ strategy fuel r, f.apply strategy fuel b = .ok r → R.Represents W' r s

/-- A function is read back at the type of its results near the point, which need not be its
type elsewhere. -/
theorem RepresentsNear.reify {f space a s : Value} {x : String} {Θ : Instance}
    {names : List String} {t : Core} (hf : RepresentsNear A a R s W f) (hA : A.Denoted)
    (hR : R.Denoted) (hs : A.RepresentsType W space) (hT : R.RepresentsType W T)
    (ha : A.Relates a a) (hΘ : W.Sub Θ) (hnames : Θ.NamedIn names)
    (ht : (Value.arrow x space T).readBack strategy fuel names f = .ok t) :
    Derives Θ t (.function A a R s) := by
  obtain _ | fuel := fuel
  · cases ht
  rw [Value.readBack] at ht
  obtain ⟨_, ⟨⟩, ht⟩ := bind_eq_ok_iff.1 ht
  obtain ⟨u, hu, ht⟩ := bind_eq_ok_iff.1 ht
  obtain ⟨y, hy, ht⟩ := bind_eq_ok_iff.1 ht
  obtain ⟨result, hresult, ht⟩ := bind_eq_ok_iff.1 ht
  obtain ⟨body, hbody, ht⟩ := bind_eq_ok_iff.1 ht
  obtain ⟨bodyTerm, hbodyTerm, ⟨⟩⟩ := bind_eq_ok_iff.1 ht
  have hresult : result = T := by
    obtain _ | fuel := fuel
    · cases hresult
    · cases hresult
      rfl
  subst hresult
  rw [apply_eq_of_now ((hf.1 u hu).trans hu.symm)] at hbody
  have hfresh := (hΘ.namedIn hnames).lookup_eq_none (Name.freshen_not_mem hy)
  refine .lamAt hA ha fun b hb => ?_
  have hb' := hA.equivalence.left hb
  have hsub := Instance.sub_cons (e := (A, b)) hfresh
  have hvar := represents_var A.adequate hA hs hb' hfresh
  exact R.adequate.reify hR (hT.mono hsub) (hf.2 _ _ _ hsub hvar hb _ _ _ hbody) (hΘ.cons y _)
    (hnames.cons y _) hbodyTerm

theorem represents_cong {f s : Value} (hv : (equal A l r).Represents W v w) (hA : A.Denoted)
    (hR : R.Denoted) (hT : R.RepresentsType W T) (hf : RepresentsNear A l R s W f)
    (hs : R.Relates s s) (hu : v.cong ⟨Value.apply strategy fuel, Closure.run strategy fuel⟩ T
      f = .ok u) :
    (equal R s s).Represents W u (.same s) := by
  have hE := hA.equivalence
  have hlr := hv.sides
  obtain ⟨uv, huv, hu⟩ := bind_eq_ok_iff.1 hu
  obtain ⟨p, c, h, rfl, hpc, hc, -⟩ | h := represents_equal_iff.1 hv
  · cases h.symm.trans huv
    obtain ⟨q, hq, ⟨⟩⟩ := bind_eq_ok_iff.1 hu
    exact represents_same (hf.2 W p c (.refl W) hpc hc _ _ _ hq) hs hs
  · obtain ⟨-, ⟨_, h⟩ | ⟨ty, stuck, h, htyped, hstuck⟩⟩ := h <;> cases h.symm.trans huv
    obtain ⟨ty', hty', hu⟩ := bind_eq_ok_iff.1 hu
    split at hu
    · obtain ⟨hspace, hl', hr'⟩ := htyped _ _ _ hty'
      obtain ⟨fl, hfl, hu⟩ := bind_eq_ok_iff.1 hu
      obtain ⟨fr, hfr, ⟨⟩⟩ := bind_eq_ok_iff.1 hu
      have hfl := hf.2 W _ _ (.refl W) hl' (hE.left hlr) _ _ _ hfl
      have hfr := hf.2 W _ _ (.refl W) hr' (hE.symm hlr) _ _ _ hfr
      refine represents_neutral (agree_equal hR hs hs).left (representsType_equal hT hfl hfr)
        ⟨s, s, rfl, rfl, hs, hs, hs⟩ (readsAs_of_succ fun hΘ hnames ht => ?_)
      rw [Neutral.readBack] at ht
      obtain ⟨tt, htt, ht⟩ := bind_eq_ok_iff.1 ht
      obtain ⟨Tt, hTt, ht⟩ := bind_eq_ok_iff.1 ht
      obtain ⟨ft, hft, ⟨⟩⟩ := bind_eq_ok_iff.1 ht
      exact .cong (hstuck _ _ _ _ _ hΘ hnames htt) (hT.reify_univ hR hΘ hnames hTt)
        (hf.reify hA hR hspace hT (hE.left hlr) hΘ hnames hft)
    · cases hu

end Equal

end Code

end PieChecker
