import PieChecker.Proofs.Canonicity.Derivation
import PieChecker.Value.ReadBack

set_option autoImplicit false

/-!
# Values of open terms and what they represent

While a program is checked, values contain variables. Once the variables are given closed values
of their types, such a value represents a closed value: `Represents S W v w` says that `v`
represents the element `w` of the type with code `S` in the instance `W` of the variables, and
`RepresentsType S W T` says that `T` represents a type with that code.

A value that waits for a variable represents an element if the term that it reads back to stands
for that element. The other values are described by what can be done with them: a number is a
constructor or waits, a function represents what its results represent, in every extension of
the instance, and so on. Evaluation may always stop early; nothing is said about a part whose
evaluation fails.
-/

namespace PieChecker

namespace Instance

/-- Everything in one instance is in the other. -/
def Sub (W W' : Instance) : Prop := ∀ x e, W.lookup x = some e → W'.lookup x = some e

theorem Sub.refl (W : Instance) : W.Sub W := fun _ _ h => h

theorem Sub.trans {W W' W'' : Instance} (h : W.Sub W') (h' : W'.Sub W'') : W.Sub W'' :=
  fun x e hx => h' x e (h x e hx)

/-- The names of an instance are among the given ones. -/
def NamedIn (Θ : Instance) (names : List String) : Prop :=
  ∀ x e, Θ.lookup x = some e → x ∈ names

end Instance

/-- A stuck elimination reads back to a term that stands for the given element, in every
instance that extends the world. -/
def Neutral.ReadsAs (W : Instance) (S : Code) (stuck : Neutral) (w : Value) : Prop :=
  ∀ Θ names strategy fuel t, W.Sub Θ → Θ.NamedIn names →
    stuck.readBack strategy fuel names = .ok t →
    Derives Θ t (.element w S)

namespace Neutral.ReadsAs

variable {W W' : Instance} {S S' : Code} {stuck : Neutral} {w w' : Value}

theorem mono (h : stuck.ReadsAs W S w) (hW : W.Sub W') : stuck.ReadsAs W' S w :=
  fun Θ names strategy fuel t hΘ => h Θ names strategy fuel t (hW.trans hΘ)

theorem conv (h : stuck.ReadsAs W S w) (hS : S.Agree S') : stuck.ReadsAs W S' w :=
  fun Θ names strategy fuel t hΘ hnames ht => (h Θ names strategy fuel t hΘ hnames ht).conv hS

theorem rel (h : stuck.ReadsAs W S w) (hw : S.Relates w w') : stuck.ReadsAs W S w' :=
  fun Θ names strategy fuel t hΘ hnames ht => (h Θ names strategy fuel t hΘ hnames ht).rel hw

end Neutral.ReadsAs

namespace Value

/-- The value cannot be forced, or it is a stuck elimination whose type is as required. -/
def Blocked (W : Instance) (S : Code) (typed : Value → Prop) (v w : Value) : Prop :=
  S.Relates w w ∧ ((∃ stop, v.now = .error stop) ∨
    ∃ T stuck, v.now = .ok (.neutral T stuck) ∧ typed T ∧ stuck.ReadsAs W S w)

/-- Numbers, with what blocked values represent. -/
inductive NatForm (blocked : Value → Value → Prop) : Value → Value → Prop where
  | zero {v : Value} (h : v.now = .ok .zero) : NatForm blocked v .zero
  | add1 {v p n : Value} (h : v.now = .ok (.add1 p)) (hp : NatForm blocked p n) :
      NatForm blocked v (.add1 n)
  | blocked {v n : Value} (h : blocked v n) : NatForm blocked v n

/-- Lists, with what their entries and what blocked values represent. -/
inductive ListForm (entry blocked : Value → Value → Prop) : Value → Value → Prop where
  | nil {v : Value} (h : v.now = .ok (.const .nil)) : ListForm entry blocked v (.const .nil)
  | cons {v a as c cs : Value} (h : v.now = .ok (.listCons a as)) (ha : entry a c)
      (has : ListForm entry blocked as cs) :
    ListForm entry blocked v (.listCons c cs)
  | blocked {v w : Value} (h : blocked v w) : ListForm entry blocked v w

/-- Lists of known length, with what their entries and what blocked values of each length
represent. -/
inductive VecForm (entry : Value → Value → Prop) (blocked : Value → Value → Value → Prop) :
    Value → Value → Value → Prop where
  | nil {v : Value} (h : v.now = .ok (.const .vecnil)) :
      VecForm entry blocked .zero v (.const .vecnil)
  | cons {v a as c cs n : Value} (h : v.now = .ok (.vecCons a as)) (ha : entry a c)
    (has : VecForm entry blocked n as cs) : VecForm entry blocked (.add1 n) v (.vecCons c cs)
  | blocked {v w n : Value} (h : blocked n v w) : VecForm entry blocked n v w

/-- Elements of a sum, with what the elements of the sides and what blocked values represent. -/
inductive SumForm (left right blocked : Value → Value → Prop) : Value → Value → Prop where
  | left {v a c : Value} (h : v.now = .ok (.unary .left a)) (ha : left a c) :
    SumForm left right blocked v (.unary .left c)
  | right {v a c : Value} (h : v.now = .ok (.unary .right a)) (ha : right a c) :
    SumForm left right blocked v (.unary .right c)
  | blocked {v w : Value} (h : blocked v w) : SumForm left right blocked v w

/-- A number in a world. -/
def IsNumber (W : Instance) : Value → Value → Prop := NatForm (Blocked W .nat fun _ => True)

/-- The value is a stuck elimination only if that stands for the element. A forced value is not
delayed again. -/
def IsOpen (W : Instance) (S : Code) (v w : Value) : Prop :=
  S.Relates w w ∧ (∀ u, v.now = .ok u → u.now = .ok u) ∧
    ∀ T stuck, v.now = .ok (.neutral T stuck) → stuck.ReadsAs W S w

/-- A type of the given form, or a stuck elimination that stands for an element of the
universe. -/
def TypeForm (W : Instance) (S : Code) (form : Value → Prop) (T : Value) : Prop :=
  ∀ u, T.now = .ok u → form u ∨ ∃ ty stuck C, u = .neutral ty stuck ∧ S.Denotes C ∧
    stuck.ReadsAs W .univ C

section Imp

variable {W W' : Instance} {S S' : Code} {v w w' n : Value}

theorem Blocked.imp {typed typed' : Value → Prop} (h : Blocked W S typed v w)
    (hw : S'.Relates w' w') (htyped : ∀ T, typed T → typed' T)
    (hreads : ∀ stuck : Neutral, stuck.ReadsAs W S w → stuck.ReadsAs W' S' w') :
    Blocked W' S' typed' v w' := by
  obtain ⟨-, ⟨stop, hv⟩ | ⟨T, stuck, hv, hT, hstuck⟩⟩ := h
  · exact ⟨hw, .inl ⟨stop, hv⟩⟩
  · exact ⟨hw, .inr ⟨T, stuck, hv, htyped T hT, hreads stuck hstuck⟩⟩

theorem IsOpen.imp (h : IsOpen W S v w) (hw : S'.Relates w' w')
    (hreads : ∀ stuck : Neutral, stuck.ReadsAs W S w → stuck.ReadsAs W' S' w') :
    IsOpen W' S' v w' :=
  ⟨hw, h.2.1, fun T stuck hv => hreads stuck (h.2.2 T stuck hv)⟩

theorem TypeForm.imp {form form' : Value → Prop} (h : TypeForm W S form v)
    (hform : ∀ u, form u → form' u) (hS : ∀ C, S.Denotes C → S'.Denotes C) (hW : W.Sub W') :
    TypeForm W' S' form' v := by
  intro u hu
  obtain hu | ⟨ty, stuck, C, rfl, hC, hstuck⟩ := h u hu
  · exact .inl (hform u hu)
  · exact .inr ⟨ty, stuck, C, rfl, hS C hC, hstuck.mono hW⟩

theorem Blocked.congr (hS : S.Agree S') : Blocked W S = Blocked W S' := by
  funext typed v w
  refine propext ⟨fun h => h.imp (hS.relates h.1) (fun _ h => h) fun _ h => h.conv hS,
    fun h => ?_⟩
  exact h.imp (hS.symm.relates h.1) (fun _ h => h) fun _ h => h.conv hS.symm

theorem Blocked.rel {typed : Value → Prop} (h : Blocked W S typed v w) (hS : S.Denoted)
    (hw : S.Relates w w') :
    Blocked W S typed v w' :=
  h.imp (hS.equivalence.right hw) (fun _ h => h) fun _ h => h.rel hw

theorem IsOpen.rel (h : IsOpen W S v w) (hS : S.Denoted) (hw : S.Relates w w') :
    IsOpen W S v w' :=
  h.imp (hS.equivalence.right hw) fun _ h => h.rel hw

theorem IsOpen.congr (hS : S.Agree S') : IsOpen W S = IsOpen W S' := by
  funext v w
  exact propext ⟨fun h => h.imp (hS.relates h.1) fun _ h => h.conv hS,
    fun h => h.imp (hS.symm.relates h.1) fun _ h => h.conv hS.symm⟩

theorem TypeForm.congr (hS : S.Agree S') : TypeForm W S = TypeForm W S' := by
  funext form T
  exact propext ⟨fun h => h.imp (fun _ h => h) (fun _ h => hS.denotes h) (.refl W),
    fun h => h.imp (fun _ h => h) (fun _ h => hS.symm.denotes h) (.refl W)⟩

theorem NatForm.imp {blocked blocked' : Value → Value → Prop} (h : NatForm blocked v w)
    (hblocked : ∀ v w, blocked v w → blocked' v w) : NatForm blocked' v w := by
  induction h with
  | zero h => exact .zero h
  | add1 h _ ih => exact .add1 h ih
  | blocked h => exact .blocked (hblocked _ _ h)

theorem ListForm.imp {entry entry' blocked blocked' : Value → Value → Prop}
    (h : ListForm entry blocked v w) (hentry : ∀ v w, entry v w → entry' v w)
    (hblocked : ∀ v w, blocked v w → blocked' v w) :
    ListForm entry' blocked' v w := by
  induction h with
  | nil h => exact .nil h
  | cons h ha _ ih => exact .cons h (hentry _ _ ha) ih
  | blocked h => exact .blocked (hblocked _ _ h)

theorem VecForm.imp {entry entry' : Value → Value → Prop}
    {blocked blocked' : Value → Value → Value → Prop} (h : VecForm entry blocked n v w)
    (hentry : ∀ v w, entry v w → entry' v w)
    (hblocked : ∀ n v w, blocked n v w → blocked' n v w) : VecForm entry' blocked' n v w := by
  induction h with
  | nil h => exact .nil h
  | cons h ha _ ih => exact .cons h (hentry _ _ ha) ih
  | blocked h => exact .blocked (hblocked _ _ _ h)

theorem SumForm.imp {left left' right right' blocked blocked' : Value → Value → Prop}
    (h : SumForm left right blocked v w) (hleft : ∀ v w, left v w → left' v w)
    (hright : ∀ v w, right v w → right' v w) (hblocked : ∀ v w, blocked v w → blocked' v w) :
    SumForm left' right' blocked' v w := by
  cases h with
  | left h ha => exact .left h (hleft _ _ ha)
  | right h ha => exact .right h (hright _ _ ha)
  | blocked h => exact .blocked (hblocked _ _ h)

end Imp

section Forcing

variable {v v' a r : Value} {strategy : Strategy} {fuel : Nat} {ap : Application}

/-! What is done with a function or a pair depends on its forced value only. -/

theorem apply_eq_of_now (h : v'.now = v.now) :
    v'.apply strategy fuel a = v.apply strategy fuel a := by
  cases fuel with
  | zero => rfl
  | succ fuel => simp only [Value.apply, h]

theorem car_eq_of_now (h : v'.now = v.now) : v'.car = v.car := by simp only [car, h]

theorem cdr_eq_of_now (h : v'.now = v.now) : v'.cdr ap = v.cdr ap := by simp only [cdr, car, h]

theorem exists_now_of_apply (h : v.apply strategy fuel a = .ok r) : ∃ u, v.now = .ok u := by
  cases fuel with
  | zero => cases h
  | succ fuel =>
    obtain ⟨u, hu, -⟩ := bind_eq_ok_iff.1 h
    exact ⟨u, hu⟩

theorem exists_now_of_car (h : v.car = .ok r) : ∃ u, v.now = .ok u := by
  obtain ⟨u, hu, -⟩ := bind_eq_ok_iff.1 h
  exact ⟨u, hu⟩

theorem exists_now_of_cdr (h : v.cdr ap = .ok r) : ∃ u, v.now = .ok u := by
  obtain ⟨u, hu, -⟩ := bind_eq_ok_iff.1 h
  exact ⟨u, hu⟩

end Forcing

/-- Numbers are the same in larger worlds. -/
theorem IsNumber.mono {W W' : Instance} {v n : Value} (h : IsNumber W v n) (hW : W.Sub W') :
    IsNumber W' v n :=
  NatForm.imp h fun _ _ h => Blocked.imp h h.1 (fun _ h => h) fun _ h => h.mono hW

end Value

namespace Code

open Value

section Reading

variable (U : Instance → Value → Value → Prop)

mutual

/-- Which types a code represents, for a given reading of the universe. -/
def representsTypeIn : Code → Instance → Value → Prop
  | univ, W => TypeForm W univ fun u => u = .univ
  | nat, W => TypeForm W nat fun u => u = .nat
  | atom, W => TypeForm W atom fun u => u = .const .atom
  | trivial, W => TypeForm W trivial fun u => u = .const .trivial
  | absurd, W => TypeForm W absurd fun u => u = .const .absurd
  | list A, W => TypeForm W (list A) fun u => ∃ e, u = .list e ∧ A.representsTypeIn W e
  | vec A n, W =>
    TypeForm W (vec A n) fun u => ∃ e l, u = .vec e l ∧ A.representsTypeIn W e ∧ IsNumber W l n
  | either A B, W => TypeForm W (either A B) fun u =>
    ∃ l r, u = .either l r ∧ A.representsTypeIn W l ∧ B.representsTypeIn W r
  | equal A l r, W => TypeForm W (equal A l r) fun u =>
    ∃ s l' r', u = .equal s l' r' ∧ A.representsTypeIn W s ∧ A.representsIn W l' l ∧
      A.representsIn W r' r
  | quant q A F, W => TypeForm W (quant q A F) fun u =>
    ∃ x base family, u = .quant q x base family ∧ A.representsTypeIn W base ∧
      ∀ W' a c, W.Sub W' → A.representsIn W' a c →
        ∀ strategy fuel r, family.run strategy fuel a = .ok r → (F c).representsTypeIn W' r

/-- What a value represents, for a given reading of the universe. -/
def representsIn : Code → Instance → Value → Value → Prop
  | univ, W => U W
  | nat, W => IsNumber W
  | atom, W =>
    fun v w => (∃ a, v.now = .ok (.quote a) ∧ w = .quote a) ∨ Blocked W atom (fun _ => True) v w
  | trivial, W => fun v w => IsOpen W trivial v w
  | absurd, _ => fun _ _ => False
  | list A, W => ListForm (A.representsIn W) (Blocked W (list A) fun T =>
    ∀ e, T.now = .ok (.list e) → A.representsTypeIn W e)
  | vec A n, W => VecForm (A.representsIn W) (fun n => Blocked W (vec A n) fun T =>
    ∀ e l, T.now = .ok (.vec e l) → A.representsTypeIn W e ∧ IsNumber W l n) n
  | either A B, W =>
    SumForm (A.representsIn W) (B.representsIn W) (Blocked W (either A B) fun T =>
    ∀ l r, T.now = .ok (.either l r) → A.representsTypeIn W l ∧ B.representsTypeIn W r)
  | equal A l r, W => fun v w =>
    (∃ p c, v.now = .ok (.same p) ∧ w = .same c ∧ A.representsIn W p c ∧ A.Relates c l ∧
      A.Relates l r) ∨
      Blocked W (equal A l r) (fun T => ∀ s l' r', T.now = .ok (.equal s l' r') →
        A.representsTypeIn W s ∧ A.representsIn W l' l ∧ A.representsIn W r' r) v w
  | quant .pi A F, W => fun v w => IsOpen W (quant .pi A F) v w ∧
    ∀ W' a c, W.Sub W' → A.representsIn W' a c → ∀ strategy fuel r,
      v.apply strategy fuel a = .ok r →
      ∃ s, w.Applies c s ∧ (F c).representsIn W' r s
  | quant .sigma A F, W => fun v w => IsOpen W (quant .sigma A F) v w ∧ ∃ c d, w = .cons c d ∧
    (∀ a, v.car = .ok a → A.representsIn W a c) ∧
    ∀ strategy fuel r, v.cdr ⟨Value.apply strategy fuel, Closure.run strategy fuel⟩ = .ok r →
    (F c).representsIn W r d

end

end Reading

/-- The reading of the universe does not matter to a small code. -/
theorem Small.representsIn_eq {S : Code} (h : S.Small)
    (U U' : Instance → Value → Value → Prop) :
    S.representsTypeIn U = S.representsTypeIn U' ∧ S.representsIn U = S.representsIn U' := by
  induction S with
  | univ => exact h.elim
  | nat | atom | trivial | absurd =>
    constructor
    · funext W
      simp only [representsTypeIn]
    · funext W
      simp only [representsIn]
  | list A ih | vec A n ih | equal A l r ih =>
    obtain ⟨hT, hE⟩ := ih h
    constructor
    · funext W
      simp only [representsTypeIn, hT, hE]
    · funext W
      simp only [representsIn, hT, hE]
  | either A B ihA ihB =>
    obtain ⟨hTA, hEA⟩ := ihA h.1
    obtain ⟨hTB, hEB⟩ := ihB h.2
    constructor
    · funext W
      simp only [representsTypeIn, hTA, hTB]
    · funext W
      simp only [representsIn, hTA, hTB, hEA, hEB]
  | quant q A F ihA ihF =>
    obtain ⟨hTA, hEA⟩ := ihA h.1
    have hTF : ∀ a, (F a).representsTypeIn U = (F a).representsTypeIn U' :=
      fun a => (ihF a (h.2 a)).1
    have hEF : ∀ a, (F a).representsIn U = (F a).representsIn U' := fun a => (ihF a (h.2 a)).2
    constructor
    · funext W
      simp only [representsTypeIn, hTA, hEA, hTF]
    · funext W
      cases q <;> simp only [representsIn, hEA, hEF]

/-- What is represented in a world is represented in every larger one. -/
theorem mono_in {U : Instance → Value → Value → Prop} {W W' : Instance} (hW : W.Sub W')
    (hU : ∀ v w, U W v w → U W' v w) (S : Code) :
    (∀ T, S.representsTypeIn U W T → S.representsTypeIn U W' T) ∧
      ∀ v w, S.representsIn U W v w → S.representsIn U W' v w := by
  induction S with
  | univ => exact ⟨fun _ h => TypeForm.imp h (fun _ h => h) (fun _ h => h) hW, hU⟩
  | nat =>
    exact ⟨fun _ h => TypeForm.imp h (fun _ h => h) (fun _ h => h) hW, fun _ _ h =>
      IsNumber.mono h hW⟩
  | atom =>
    refine ⟨fun _ h => TypeForm.imp h (fun _ h => h) (fun _ h => h) hW, fun v w h => ?_⟩
    exact h.imp_right fun h => Blocked.imp h h.1 (fun _ h => h) fun _ h => h.mono hW
  | trivial =>
    exact ⟨fun _ h => TypeForm.imp h (fun _ h => h) (fun _ h => h) hW,
      fun v w h => IsOpen.imp h h.1 fun _ h => h.mono hW⟩
  | absurd => exact ⟨fun _ h => TypeForm.imp h (fun _ h => h) (fun _ h => h) hW, fun _ _ h => h⟩
  | list A ih =>
    constructor
    · refine fun T h => TypeForm.imp h ?_ (fun _ h => h) hW
      rintro _ ⟨e, rfl, he⟩
      exact ⟨e, rfl, ih.1 e he⟩
    · refine fun v w h => ListForm.imp h ih.2 fun v w h => ?_
      exact Blocked.imp h h.1 (fun T hT e he => ih.1 e (hT e he)) fun _ h => h.mono hW
  | vec A n ih =>
    constructor
    · refine fun T h => TypeForm.imp h ?_ (fun _ h => h) hW
      rintro _ ⟨e, l, rfl, he, hl⟩
      exact ⟨e, l, rfl, ih.1 e he, hl.mono hW⟩
    · refine fun v w h => VecForm.imp h ih.2 fun n v w h => ?_
      exact Blocked.imp h h.1 (fun T hT e l hel =>
        ⟨ih.1 e (hT e l hel).1, (hT e l hel).2.mono hW⟩) fun _ h => h.mono hW
  | either A B ihA ihB =>
    constructor
    · refine fun T h => TypeForm.imp h ?_ (fun _ h => h) hW
      rintro _ ⟨l, r, rfl, hl, hr⟩
      exact ⟨l, r, rfl, ihA.1 l hl, ihB.1 r hr⟩
    · refine fun v w h => SumForm.imp h ihA.2 ihB.2 fun v w h => ?_
      exact Blocked.imp h h.1 (fun T hT l r hlr =>
        ⟨ihA.1 l (hT l r hlr).1, ihB.1 r (hT l r hlr).2⟩) fun _ h => h.mono hW
  | equal A l r ih =>
    constructor
    · refine fun T h => TypeForm.imp h ?_ (fun _ h => h) hW
      rintro _ ⟨s, l', r', rfl, hs, hl, hr⟩
      exact ⟨s, l', r', rfl, ih.1 s hs, ih.2 l' l hl, ih.2 r' r hr⟩
    · refine fun v w h => h.imp ?_ fun h => Blocked.imp h h.1 (fun T hT s l' r' hT' => ?_)
        fun _ h => h.mono hW
      · rintro ⟨p, c, hp, rfl, hpc, hc, hlr⟩
        exact ⟨p, c, hp, rfl, ih.2 p c hpc, hc, hlr⟩
      · obtain ⟨hs, hl, hr⟩ := hT s l' r' hT'
        exact ⟨ih.1 s hs, ih.2 l' l hl, ih.2 r' r hr⟩
  | quant q A F ihA ihF =>
    constructor
    · refine fun T h => TypeForm.imp h ?_ (fun _ h => h) hW
      rintro _ ⟨x, base, family, rfl, hbase, hfamily⟩
      exact ⟨x, base, family, rfl, ihA.1 base hbase, fun W'' a c hW' =>
        hfamily W'' a c (hW.trans hW')⟩
    · cases q with
      | pi =>
        rintro v w ⟨hopen, h⟩
        exact ⟨hopen.imp hopen.1 fun _ h => h.mono hW, fun W'' a c hW' =>
          h W'' a c (hW.trans hW')⟩
      | sigma =>
        rintro v w ⟨hopen, c, d, rfl, hc, hd⟩
        exact ⟨hopen.imp hopen.1 fun _ h => h.mono hW, c, d, rfl, fun a ha =>
          ihA.2 a c (hc a ha),
          fun strategy fuel r hr => (ihF c).2 r d (hd strategy fuel r hr)⟩

/-! ## The universe -/

/-- A type represents an element of the universe if it represents a type with a small code. -/
def RepresentsSmall (W : Instance) (T C : Value) : Prop :=
  ∃ S : Code, S.Small ∧ S.representsTypeIn (fun _ _ _ => False) W T ∧ S.Denotes C

/-- A value represents a type with the given code. -/
def RepresentsType (S : Code) (W : Instance) (T : Value) : Prop :=
  S.representsTypeIn RepresentsSmall W T

/-- A value represents an element of the type with the given code. -/
def Represents (S : Code) (W : Instance) (v w : Value) : Prop :=
  S.representsIn RepresentsSmall W v w

theorem represents_univ_iff {W : Instance} {v w : Value} :
    univ.Represents W v w ↔ ∃ S : Code, S.Small ∧ S.RepresentsType W v ∧ S.Denotes w := by
  rw [Represents, representsIn]
  refine exists_congr fun S => and_congr_right fun hS => ?_
  rw [RepresentsType, (hS.representsIn_eq RepresentsSmall _).1]

theorem represents_pi_iff {W : Instance} {v w : Value} {A : Code} {F : Value → Code} :
    (quant .pi A F).Represents W v w ↔ IsOpen W (quant .pi A F) v w ∧
      ∀ W' a c, W.Sub W' → A.Represents W' a c → ∀ strategy fuel r,
        v.apply strategy fuel a = .ok r →
        ∃ s, w.Applies c s ∧ (F c).Represents W' r s :=
  Iff.rfl

theorem represents_sigma_iff {W : Instance} {v w : Value} {A : Code} {F : Value → Code} :
    (quant .sigma A F).Represents W v w ↔ IsOpen W (quant .sigma A F) v w ∧
      ∃ c d, w = .cons c d ∧
      (∀ a, v.car = .ok a → A.Represents W a c) ∧ ∀ strategy fuel r,
        v.cdr ⟨Value.apply strategy fuel, Closure.run strategy fuel⟩ = .ok r →
        (F c).Represents W r d :=
  Iff.rfl

theorem represents_equal_iff {W : Instance} {v w l r : Value} {A : Code} :
    (equal A l r).Represents W v w ↔
      (∃ p c, v.now = .ok (.same p) ∧ w = .same c ∧ A.Represents W p c ∧ A.Relates c l ∧
        A.Relates l r) ∨
      Blocked W (equal A l r) (fun T => ∀ s l' r', T.now = .ok (.equal s l' r') →
        A.RepresentsType W s ∧ A.Represents W l' l ∧ A.Represents W r' r) v w :=
  Iff.rfl

variable {S : Code} {W W' : Instance} {T u v v' w w' : Value}

theorem RepresentsSmall.mono (h : RepresentsSmall W v w) (hW : W.Sub W') :
    RepresentsSmall W' v w := by
  obtain ⟨S, hS, hv, hw⟩ := h
  exact ⟨S, hS, (mono_in hW (fun _ _ h => h) S).1 v hv, hw⟩

theorem RepresentsType.mono (h : S.RepresentsType W T) (hW : W.Sub W') :
    S.RepresentsType W' T :=
  (mono_in hW (fun _ _ h => RepresentsSmall.mono h hW) S).1 T h

theorem Represents.mono (h : S.Represents W v w) (hW : W.Sub W') : S.Represents W' v w :=
  (mono_in hW (fun _ _ h => RepresentsSmall.mono h hW) S).2 v w h

/-! ## What is represented is an element -/

theorem Represents.relates (h : S.Represents W v w) : S.Relates w w := by
  induction S generalizing v w with
  | univ =>
    obtain ⟨S, hS, -, hw⟩ := represents_univ_iff.1 h
    exact relates_univ_iff.2 ⟨S, hS, hw, hw⟩
  | nat =>
    change NatForm _ v w at h
    induction h with
    | zero => exact ⟨rfl, .zero⟩
    | add1 _ _ ih => exact ⟨rfl, .add1 ih.2⟩
    | blocked h => exact h.1
  | atom =>
    obtain ⟨a, -, rfl⟩ | h := h
    · exact ⟨a, rfl, rfl⟩
    · exact h.1
  | trivial => exact h.1
  | absurd => exact h.elim
  | list A ih =>
    change ListForm _ _ v w at h
    induction h with
    | nil => exact .nil
    | cons _ ha _ ihs => exact .cons (ih ha) ihs
    | blocked h => exact h.1
  | vec A n ih =>
    change VecForm _ _ n v w at h
    induction h with
    | nil => exact .nil
    | cons _ ha _ ihs => exact .cons (ih ha) ihs
    | blocked h => exact h.1
  | either A B ihA ihB =>
    change SumForm _ _ _ v w at h
    cases h with
    | left _ ha => exact .left (ihA ha)
    | right _ ha => exact .right (ihB ha)
    | blocked h => exact h.1
  | equal A l r =>
    obtain ⟨p, c, -, rfl, -, hc, hlr⟩ | h := h
    · exact ⟨c, c, rfl, rfl, hc, hc, hlr⟩
    · exact h.1
  | quant q A F =>
    cases q with
    | pi => exact h.1.1
    | sigma => exact h.1.1

/-! ## Equal types and equal elements -/

/-- Codes of one type represent the same, and so do equal elements. -/
structure Stable (S : Code) : Prop where
  type_eq : ∀ {S' : Code}, S.Agree S' → S.RepresentsType = S'.RepresentsType
  eq : ∀ {S' : Code}, S.Agree S' → S.Represents = S'.Represents
  rel : ∀ {W : Instance} {v w w' : Value}, S.Denoted → S.Represents W v w → S.Relates w w' →
    S.Represents W v w'

theorem Stable.type_iff {S' : Code} (hS : S.Stable) (h : S.Agree S') : S.RepresentsType W T ↔
    S'.RepresentsType W T := by
  rw [hS.type_eq h]

theorem Stable.iff {S' : Code} (hS : S.Stable) (h : S.Agree S') : S.Represents W v w ↔
    S'.Represents W v w := by
  rw [hS.eq h]

theorem eq_of_agree_const {c : Const} (hS : S.Denotes (.const c)) {S' : Code}
    (h : S.Agree S') : S = S' :=
  eq_of_denotesIn_const hS S' (h.denotes hS)

/-- A code of a constant type agrees with no other code. -/
theorem stable_const {c : Const} (hc : S.Denotes (.const c))
    (rel : ∀ {W : Instance} {v w w' : Value}, S.Represents W v w → S.Relates w w' →
      S.Represents W v w') : S.Stable where
  type_eq h := by rw [eq_of_agree_const hc h]
  eq h := by rw [eq_of_agree_const hc h]
  rel _ := rel

theorem stable_univ : univ.Stable := by
  refine stable_const (c := .univ) rfl fun h hw => ?_
  obtain ⟨S, hS, hv, hSw⟩ := represents_univ_iff.1 h
  obtain ⟨S', -, hS'w, hS'w'⟩ := relates_univ_iff.1 hw
  exact represents_univ_iff.2 ⟨S, hS, hv, hS'w.denotes_eq hSw ▸ hS'w'⟩

theorem stable_nat : nat.Stable := by
  refine stable_const (c := .nat) rfl fun h hw => ?_
  obtain ⟨rfl, -⟩ := hw
  exact h

theorem stable_atom : atom.Stable := by
  refine stable_const (c := .atom) rfl fun h hw => ?_
  obtain ⟨a, rfl, rfl⟩ := hw
  exact h

theorem stable_trivial : trivial.Stable := by
  refine stable_const (c := .trivial) rfl fun h hw => ?_
  obtain ⟨rfl, rfl⟩ := hw
  exact h

theorem stable_absurd : absurd.Stable := stable_const (c := .absurd) rfl fun h _ => h.elim

theorem stable_list {A : Code} (hA : A.Stable) : (list A).Stable where
  type_eq h := by
    obtain ⟨A', rfl, hA'⟩ := h.of_list
    funext W T
    change TypeForm W _ (fun u => ∃ e, u = .list e ∧ A.RepresentsType W e) T = TypeForm W _ _ T
    rw [TypeForm.congr h, hA.type_eq hA']
    rfl
  eq h := by
    obtain ⟨A', rfl, hA'⟩ := h.of_list
    funext W
    change ListForm (A.Represents W)
      (Blocked W _ fun T => ∀ e, T.now = .ok (.list e) → A.RepresentsType W e) = ListForm _ _
    rw [Blocked.congr h, hA.type_eq hA', hA.eq hA']
    rfl
  rel {W v w w'} hS h hw := by
    change ListForm _ _ v w at h
    change ListsRelated A.Relates w w' at hw
    change ListForm _ _ v w'
    induction h generalizing w' with
    | nil h =>
      cases hw
      exact .nil h
    | cons h ha _ ih =>
      cases hw with
      | cons hc hcs => exact .cons h (hA.rel hS.list_entry ha hc) (ih hcs)
    | blocked h => exact .blocked (h.rel hS hw)

theorem stable_vec {A : Code} {n : Value} (hA : A.Stable) : (vec A n).Stable where
  type_eq h := by
    obtain ⟨A', rfl, hA'⟩ := h.of_vec
    funext W T
    change TypeForm W _ (fun u => ∃ e l, u = .vec e l ∧ A.RepresentsType W e ∧ IsNumber W l n)
      T = TypeForm W _ _ T
    rw [TypeForm.congr h, hA.type_eq hA']
    rfl
  eq h := by
    obtain ⟨A', rfl, hA'⟩ := h.of_vec
    have hagree : ∀ {n}, n.IsNumeral → (vec A n).Agree (vec A' n) := by
      intro n hn
      obtain ⟨e, he, he'⟩ := hA'
      exact ⟨.vec e n, ⟨e, rfl, hn, he⟩, e, rfl, hn, he'⟩
    funext W v w
    refine propext ⟨fun h => VecForm.imp h (fun v w => (hA.iff hA').1) fun n v w h => ?_,
      fun h => VecForm.imp h (fun v w => (hA.iff hA').2) fun n v w h => ?_⟩
    · have hS := hagree (VecsRelated.isNumeral h.1)
      exact h.imp (hS.relates h.1)
        (fun T hT e l hel => (hT e l hel).imp_left (hA.type_iff hA').1) fun _ h => h.conv hS
    · have hS := (hagree (VecsRelated.isNumeral h.1)).symm
      exact h.imp (hS.relates h.1)
        (fun T hT e l hel => (hT e l hel).imp_left (hA.type_iff hA').2) fun _ h => h.conv hS
  rel {W v w w'} hS h hw := by
    change VecForm _ _ n v w at h
    change VecsRelated A.Relates n w w' at hw
    change VecForm _ _ n v w'
    induction h generalizing w' with
    | nil h =>
      cases hw
      exact .nil h
    | cons h ha _ ih =>
      cases hw with
      | cons hc hcs =>
        exact .cons h (hA.rel hS.vec_entry ha hc)
          (ih (denoted_vec hS.vec_entry hcs.isNumeral) hcs)
    | blocked h => exact .blocked (h.rel hS hw)

theorem stable_either {A B : Code} (hA : A.Stable) (hB : B.Stable) : (either A B).Stable where
  type_eq h := by
    obtain ⟨A', B', rfl, hA', hB'⟩ := h.of_either
    funext W T
    change TypeForm W _ (fun u => ∃ l r, u = .either l r ∧ A.RepresentsType W l ∧
      B.RepresentsType W r) T = TypeForm W _ _ T
    rw [TypeForm.congr h, hA.type_eq hA', hB.type_eq hB']
    rfl
  eq h := by
    obtain ⟨A', B', rfl, hA', hB'⟩ := h.of_either
    funext W
    change SumForm (A.Represents W) (B.Represents W) (Blocked W _ fun T =>
      ∀ l r, T.now = .ok (.either l r) → A.RepresentsType W l ∧ B.RepresentsType W r) =
        SumForm _ _ _
    rw [Blocked.congr h, hA.type_eq hA', hA.eq hA', hB.type_eq hB', hB.eq hB']
    rfl
  rel {W v w w'} hS h hw := by
    change SumForm _ _ _ v w at h
    change SumsRelated A.Relates B.Relates w w' at hw
    change SumForm _ _ _ v w'
    cases h with
    | left h ha =>
      cases hw with
      | left hc => exact .left h (hA.rel hS.either_left ha hc)
    | right h ha =>
      cases hw with
      | right hc => exact .right h (hB.rel hS.either_right ha hc)
    | blocked h => exact .blocked (h.rel hS hw)

theorem stable_equal {A : Code} {l r : Value} (hA : A.Stable) : (equal A l r).Stable := by
  -- The sides of an equality of an agreeing code are equal elements, so they are represented
  -- alike.
  have hside : ∀ {A' : Code} {W : Instance} {v a a' : Value}, A.Agree A' → A.Relates a a' →
      (A.Represents W v a ↔ A'.Represents W v a') := by
    intro A' W v a a' hA' haa'
    rw [← hA.iff hA']
    exact ⟨fun h => hA.rel hA'.left h haa', fun h =>
      hA.rel hA'.left h (hA'.left.equivalence.symm haa')⟩
  constructor
  case type_eq =>
    intro S' h
    obtain ⟨A', l', r', rfl, hA', hl, hr⟩ := h.of_equal
    funext W T
    change TypeForm W _ (fun u => ∃ s l₀ r₀, u = .equal s l₀ r₀ ∧ A.RepresentsType W s ∧
      A.Represents W l₀ l ∧ A.Represents W r₀ r) T = TypeForm W _ _ T
    simp only [TypeForm.congr h, hA.type_eq hA', hside hA' hl, hside hA' hr]
    rfl
  case eq =>
    intro S' h
    obtain ⟨A', l', r', rfl, hA', hl, hr⟩ := h.of_equal
    funext W v w
    have hE := hA'.left.equivalence
    have hcl : ∀ c, A.Relates c l ↔ A'.Relates c l' := fun c =>
      ⟨fun h => hA'.relates (hE.trans h hl), fun h =>
        hE.trans (hA'.symm.relates h) (hE.symm hl)⟩
    have hlr : A.Relates l r ↔ A'.Relates l' r' :=
      ⟨fun h => hA'.relates (hE.trans (hE.symm hl) (hE.trans h hr)),
        fun h => hE.trans hl (hE.trans (hA'.symm.relates h) (hE.symm hr))⟩
    change ((∃ p c, v.now = .ok (.same p) ∧ w = .same c ∧ A.Represents W p c ∧ A.Relates c l ∧
      A.Relates l r) ∨ Blocked W _ (fun T => ∀ s l₀ r₀, T.now = .ok (.equal s l₀ r₀) →
        A.RepresentsType W s ∧ A.Represents W l₀ l ∧ A.Represents W r₀ r) v w) =
          (_ ∨ Blocked W _ _ v w)
    simp only [Blocked.congr h, hA.type_eq hA', hside hA' hl, hside hA' hr, hcl, hlr, hA.eq hA']
    rfl
  case rel =>
    intro W v w w' hS h hw
    obtain ⟨p, c, hp, rfl, hpc, hc, hlr⟩ | h := h
    · obtain ⟨_, c', _, rfl, -, hc', -⟩ := hw
      have hE := hS.equal_space.equivalence
      exact .inl ⟨p, c', hp, rfl, hA.rel hS.equal_space hpc (hE.trans hc (hE.symm hc')),
        hc', hlr⟩
    · exact .inr (Blocked.rel h hS hw)

/-- What a type that depends on an argument represents, for codes of one type. -/
theorem stable_quant_type_eq {q : Quantifier} {A : Code} {F : Value → Code} (hA : A.Stable)
    (hF : ∀ a, (F a).Stable) {S' : Code} (h : (quant q A F).Agree S') :
    (quant q A F).RepresentsType = S'.RepresentsType := by
  obtain ⟨A', F', rfl, hA', hF'⟩ := h.of_quant
  funext W T
  change TypeForm W _ (fun u => ∃ x base family, u = .quant q x base family ∧
    A.RepresentsType W base ∧
    ∀ W' a c, W.Sub W' → A.Represents W' a c → ∀ strategy fuel r,
      family.run strategy fuel a = .ok r →
      (F c).RepresentsType W' r) T = TypeForm W _ _ T
  rw [TypeForm.congr h, hA.type_eq hA']
  refine congrArg (fun form => TypeForm W _ form T) (funext fun u => ?_)
  refine propext (exists_congr fun x => exists_congr fun base => exists_congr fun family => ?_)
  refine and_congr_right fun _ => and_congr_right fun _ => ?_
  refine forall_congr' fun W' => forall_congr' fun a => forall_congr' fun c =>
    forall_congr' fun _ => ?_
  rw [hA.eq hA']
  refine forall_congr' fun hc => forall_congr' fun _ => forall_congr' fun _ =>
    forall_congr' fun r => ?_
  exact forall_congr' fun _ => (hF c).type_iff
    (hF' c (hA'.symm.relates (Represents.relates hc)))

theorem stable_pi {A : Code} {F : Value → Code} (hA : A.Stable) (hF : ∀ a, (F a).Stable) :
    (quant .pi A F).Stable where
  type_eq := stable_quant_type_eq hA hF
  eq h := by
    obtain ⟨A', F', rfl, hA', hF'⟩ := h.of_quant
    funext W v w
    change (IsOpen W _ v w ∧ ∀ W' a c, W.Sub W' → A.Represents W' a c → ∀ strategy fuel r,
      v.apply strategy fuel a = .ok r → ∃ s, w.Applies c s ∧ (F c).Represents W' r s) =
        (IsOpen W _ v w ∧ _)
    rw [IsOpen.congr h, hA.eq hA']
    refine propext (and_congr_right fun _ => ?_)
    refine forall_congr' fun W' => forall_congr' fun a => forall_congr' fun c =>
      forall_congr' fun _ => ?_
    refine forall_congr' fun hc => forall_congr' fun _ => forall_congr' fun _ =>
      forall_congr' fun r => ?_
    refine forall_congr' fun _ => exists_congr fun s => and_congr_right fun _ => ?_
    exact (hF c).iff (hF' c (hA'.symm.relates (Represents.relates hc)))
  rel {W v w w'} hS h hw := by
    obtain ⟨hopen, h⟩ := h
    refine ⟨hopen.rel hS hw, fun W' a c hW hc strategy fuel r hr => ?_⟩
    obtain ⟨s, hs, hrs⟩ := h W' a c hW hc strategy fuel r hr
    have hcc := Represents.relates hc
    obtain ⟨s₁, s₂, h₁, h₂, h₁₂⟩ := hw c c hcc
    obtain rfl := h₁.unique hs
    exact ⟨s₂, h₂, (hF c).rel (hS.family hcc).left hrs h₁₂⟩

theorem stable_sigma {A : Code} {F : Value → Code} (hA : A.Stable) (hF : ∀ a, (F a).Stable) :
    (quant .sigma A F).Stable where
  type_eq := stable_quant_type_eq hA hF
  eq h := by
    obtain ⟨A', F', rfl, hA', hF'⟩ := h.of_quant
    funext W v w
    change (IsOpen W _ v w ∧ ∃ c d, w = .cons c d ∧ (∀ a, v.car = .ok a → A.Represents W a c) ∧
      ∀ strategy fuel r, v.cdr ⟨Value.apply strategy fuel, Closure.run strategy fuel⟩ = .ok r →
        (F c).Represents W r d) = (IsOpen W _ v w ∧ _)
    rw [IsOpen.congr h, hA.eq hA']
    refine propext (and_congr_right fun hopen => exists_congr fun c => exists_congr fun d => ?_)
    refine and_congr_right fun hw => and_congr_right fun _ => ?_
    refine forall_congr' fun _ => forall_congr' fun _ => forall_congr' fun r =>
      forall_congr' fun _ => ?_
    subst hw
    obtain ⟨_, _, _, _, h₁, h₂, hc, -⟩ := hopen.1
    cases h₁
    cases h₂
    exact (hF c).iff (hF' c (hA'.symm.relates hc))
  rel {W v w w'} hS h hw := by
    obtain ⟨hopen, c, d, rfl, hc, hd⟩ := h
    have hopen' := hopen.rel hS hw
    obtain ⟨_, _, c', d', h₁, rfl, hcc', hdd'⟩ := hw
    cases h₁
    have hagree := hS.family hcc'
    refine ⟨hopen', c', d', rfl, fun a ha => hA.rel hS.base (hc a ha) hcc',
      fun strategy fuel r hr => ?_⟩
    exact ((hF c).iff hagree).1 ((hF c).rel hagree.left (hd strategy fuel r hr) hdd')

theorem stable (S : Code) : S.Stable := by
  induction S with
  | univ => exact stable_univ
  | nat => exact stable_nat
  | atom => exact stable_atom
  | trivial => exact stable_trivial
  | absurd => exact stable_absurd
  | list A ih => exact stable_list ih
  | vec A n ih => exact stable_vec ih
  | either A B ihA ihB => exact stable_either ihA ihB
  | equal A l r ih => exact stable_equal ih
  | quant q A F ihA ihF =>
    cases q with
    | pi => exact stable_pi ihA ihF
    | sigma => exact stable_sigma ihA ihF

theorem RepresentsType.conv {S' : Code} (h : S.RepresentsType W T) (hS : S.Agree S') :
    S'.RepresentsType W T :=
  (S.stable.type_iff hS).1 h

theorem Represents.conv {S' : Code} (h : S.Represents W v w) (hS : S.Agree S') :
    S'.Represents W v w :=
  (S.stable.iff hS).1 h

theorem Represents.rel (h : S.Represents W v w) (hS : S.Denoted) (hw : S.Relates w w') :
    S.Represents W v w' :=
  S.stable.rel hS h hw

/-! ## Forcing -/

theorem RepresentsType.of_now (h : S.RepresentsType W T) {T' : Value}
    (hT : ∀ u, T'.now = .ok u → T.now = .ok u) :
    S.RepresentsType W T' := by
  cases S <;> exact fun u hu => h u (hT u hu)

/-- A value that cannot be forced represents every element. -/
theorem represents_of_error {stop : Stop} (hv : v.now = .error stop) (hw : S.Relates w w) :
    S.Represents W v w := by
  have hblocked : ∀ {S : Code} {typed : Value → Prop}, S.Relates w w → Blocked W S typed v w :=
    fun hw => ⟨hw, .inl ⟨stop, hv⟩⟩
  have hopen : ∀ {S : Code}, S.Relates w w → IsOpen W S v w := by
    intro S hw
    refine ⟨hw, fun u hu => ?_, fun T stuck hu => ?_⟩ <;> rw [hv] at hu <;> cases hu
  cases S with
  | univ =>
    obtain ⟨S, hS, hSw, -⟩ := relates_univ_iff.1 hw
    refine represents_univ_iff.2 ⟨S, hS, ?_, hSw⟩
    cases S <;> intro u hu <;> rw [hv] at hu <;> cases hu
  | nat => exact .blocked (hblocked hw)
  | atom => exact .inr (hblocked hw)
  | trivial => exact hopen hw
  | absurd => exact hw.elim
  | list => exact .blocked (hblocked hw)
  | vec => exact .blocked (hblocked hw)
  | either => exact .blocked (hblocked hw)
  | equal => exact .inr (hblocked hw)
  | quant q A F =>
    have hfail : ∀ u, v.now ≠ .ok u := fun u hu => by rw [hv] at hu; cases hu
    cases q with
    | pi =>
      refine ⟨hopen hw, fun W' a c _ _ strategy fuel r hr => ?_⟩
      obtain ⟨u, hu⟩ := exists_now_of_apply hr
      exact (hfail u hu).elim
    | sigma =>
      have hopen := hopen hw
      obtain ⟨c, d, _, _, rfl, -⟩ := hw
      refine ⟨hopen, c, d, rfl, fun a ha => ?_, fun strategy fuel r hr => ?_⟩
      · obtain ⟨u, hu⟩ := exists_now_of_car ha
        exact (hfail u hu).elim
      · obtain ⟨u, hu⟩ := exists_now_of_cdr hr
        exact (hfail u hu).elim

theorem Represents.of_now_eq (h : S.Represents W v w) (hv : v'.now = v.now) :
    S.Represents W v' w := by
  have hblocked : ∀ {S : Code} {typed : Value → Prop}, Blocked W S typed v w →
      Blocked W S typed v' w := by
    intro S typed h
    rw [Blocked, hv]
    exact h
  have hopen : ∀ {S : Code}, IsOpen W S v w → IsOpen W S v' w := by
    intro S h
    rw [Value.IsOpen, hv]
    exact h
  cases S with
  | univ =>
    obtain ⟨S, hS, hSv, hSw⟩ := represents_univ_iff.1 h
    exact represents_univ_iff.2 ⟨S, hS, hSv.of_now fun u hu => hv ▸ hu, hSw⟩
  | nat =>
    cases h with
    | zero h => exact .zero (hv.trans h)
    | add1 h hp => exact .add1 (hv.trans h) hp
    | blocked h => exact .blocked (hblocked h)
  | atom =>
    obtain ⟨a, ha, rfl⟩ | h := h
    · exact .inl ⟨a, hv.trans ha, rfl⟩
    · exact .inr (hblocked h)
  | trivial => exact hopen h
  | absurd => exact h.elim
  | list A =>
    cases h with
    | nil h => exact .nil (hv.trans h)
    | cons h ha has => exact .cons (hv.trans h) ha has
    | blocked h => exact .blocked (hblocked h)
  | vec A n =>
    cases h with
    | nil h => exact .nil (hv.trans h)
    | cons h ha has => exact .cons (hv.trans h) ha has
    | blocked h => exact .blocked (hblocked h)
  | either A B =>
    cases h with
    | left h ha => exact .left (hv.trans h) ha
    | right h ha => exact .right (hv.trans h) ha
    | blocked h => exact .blocked (hblocked h)
  | equal A l r =>
    obtain ⟨p, c, hp, hrest⟩ | h := h
    · exact .inl ⟨p, c, hv.trans hp, hrest⟩
    · exact .inr (hblocked h)
  | quant q A F =>
    cases q with
    | pi =>
      refine ⟨hopen h.1, fun W' a c hW hc strategy fuel r hr => ?_⟩
      exact h.2 W' a c hW hc strategy fuel r (apply_eq_of_now hv ▸ hr)
    | sigma =>
      obtain ⟨ho, c, d, rfl, hc, hd⟩ := h
      exact ⟨hopen ho, c, d, rfl, fun a ha => hc a (car_eq_of_now hv ▸ ha),
        fun strategy fuel r hr => hd strategy fuel r (cdr_eq_of_now hv ▸ hr)⟩

/-- What a value represents depends on its forced value only, and a value that cannot be forced
represents anything. -/
theorem Represents.of_now (h : S.Represents W v w) (hv : ∀ u, v'.now = .ok u → v.now = .ok u) :
    S.Represents W v' w := by
  cases hv' : v'.now with
  | error stop => exact represents_of_error hv' h.relates
  | ok u => exact h.of_now_eq (hv'.trans (hv u hv').symm)

/-- A forced type is a former or a stuck elimination, which nothing delays. -/
theorem RepresentsType.settled (h : S.RepresentsType W T) (hT : T.now = .ok u) :
    u.now = .ok u := by
  cases S with
  | univ | nat | atom | trivial | absurd => obtain rfl | ⟨_, _, _, rfl, -⟩ := h u hT <;> rfl
  | list => obtain ⟨_, rfl, -⟩ | ⟨_, _, _, rfl, -⟩ := h u hT <;> rfl
  | vec | either => obtain ⟨_, _, rfl, -⟩ | ⟨_, _, _, rfl, -⟩ := h u hT <;> rfl
  | equal | quant => obtain ⟨_, _, _, rfl, -⟩ | ⟨_, _, _, rfl, -⟩ := h u hT <;> rfl

theorem RepresentsType.forced (h : S.RepresentsType W T) (hT : T.now = .ok u) :
    S.RepresentsType W u :=
  h.of_now fun u' hu' => by rw [hT, ← hu', h.settled hT]

theorem Represents.settled (h : S.Represents W v w) (hv : v.now = .ok u) : u.now = .ok u := by
  have hblocked : ∀ {S : Code} {typed : Value → Prop}, Blocked W S typed v w →
      u.now = .ok u := by
    rintro S typed ⟨-, ⟨stop, h⟩ | ⟨T, stuck, h, -⟩⟩ <;> rw [hv] at h <;> cases h
    rfl
  cases S with
  | univ =>
    obtain ⟨S, -, hS, -⟩ := represents_univ_iff.1 h
    exact hS.settled hv
  | nat =>
    cases h with
    | zero h | add1 h => rw [hv] at h; cases h; rfl
    | blocked h => exact hblocked h
  | atom =>
    obtain ⟨a, h, -⟩ | h := h
    · rw [hv] at h; cases h; rfl
    · exact hblocked h
  | trivial => exact h.2.1 u hv
  | absurd => exact h.elim
  | list =>
    cases h with
    | nil h | cons h => rw [hv] at h; cases h; rfl
    | blocked h => exact hblocked h
  | vec =>
    cases h with
    | nil h | cons h => rw [hv] at h; cases h; rfl
    | blocked h => exact hblocked h
  | either =>
    cases h with
    | left h | right h => rw [hv] at h; cases h; rfl
    | blocked h => exact hblocked h
  | equal =>
    obtain ⟨p, c, h, -⟩ | h := h
    · rw [hv] at h; cases h; rfl
    · exact hblocked h
  | quant q =>
    cases q with
    | pi | sigma => exact h.1.2.1 u hv

theorem Represents.forced (h : S.Represents W v w) (hv : v.now = .ok u) : S.Represents W u w :=
  h.of_now fun u' hu' => by rw [hv, ← hu', h.settled hv]

/-- A stuck elimination of type `U` stands for the code's type. -/
theorem RepresentsType.readsAs {ty : Value} {stuck : Neutral} (h : S.RepresentsType W T)
    (hT : T.now = .ok (.neutral ty stuck)) : ∃ C, S.Denotes C ∧ stuck.ReadsAs W univ C := by
  have hstuck : ∀ {form : Value → Prop}, (form (.neutral ty stuck) → False) →
      TypeForm W S form T →
      ∃ C, S.Denotes C ∧ stuck.ReadsAs W univ C := by
    intro form hform h
    obtain h | ⟨_, _, C, heq, hC, hreads⟩ := h _ hT
    · exact (hform h).elim
    · cases heq
      exact ⟨C, hC, hreads⟩
  cases S with
  | univ | nat | atom | trivial | absurd => exact hstuck (fun h => by cases h) h
  | list => exact hstuck (fun ⟨_, h, _⟩ => by cases h) h
  | vec | either => exact hstuck (fun ⟨_, _, h, _⟩ => by cases h) h
  | equal | quant => exact hstuck (fun ⟨_, _, _, h, _⟩ => by cases h) h

/-- A stuck elimination stands for what it represents. -/
theorem Represents.readsAs {ty : Value} {stuck : Neutral} (h : S.Represents W v w)
    (hv : v.now = .ok (.neutral ty stuck)) : stuck.ReadsAs W S w := by
  have hblocked : ∀ {S : Code} {typed : Value → Prop}, Blocked W S typed v w →
      stuck.ReadsAs W S w := by
    rintro S typed ⟨-, ⟨stop, h⟩ | ⟨T, stuck', h, -, hreads⟩⟩ <;> rw [hv] at h <;> cases h
    exact hreads
  cases S with
  | univ =>
    obtain ⟨S, hS, hSv, hSw⟩ := represents_univ_iff.1 h
    obtain ⟨C, hC, hreads⟩ := hSv.readsAs hv
    exact hreads.rel (relates_univ_iff.2 ⟨S, hS, hC, hSw⟩)
  | nat =>
    cases h with
    | zero h | add1 h => rw [hv] at h; cases h
    | blocked h => exact hblocked h
  | atom =>
    obtain ⟨a, h, -⟩ | h := h
    · rw [hv] at h; cases h
    · exact hblocked h
  | trivial => exact h.2.2 ty stuck hv
  | absurd => exact h.elim
  | list =>
    cases h with
    | nil h | cons h => rw [hv] at h; cases h
    | blocked h => exact hblocked h
  | vec =>
    cases h with
    | nil h | cons h => rw [hv] at h; cases h
    | blocked h => exact hblocked h
  | either =>
    cases h with
    | left h | right h => rw [hv] at h; cases h
    | blocked h => exact hblocked h
  | equal =>
    obtain ⟨p, c, h, -⟩ | h := h
    · rw [hv] at h; cases h
    · exact hblocked h
  | quant q =>
    cases q with
    | pi | sigma => exact h.1.2.2 ty stuck hv

/-! ## Types by their form -/

section Form

variable {A B : Code} {F : Value → Code} {q : Quantifier} {x : String} {e l r s n base : Value}
  {family : Closure}

theorem representsType_neutral {ty C : Value} {stuck : Neutral} (hC : S.Denotes C)
    (h : stuck.ReadsAs W univ C) :
    S.RepresentsType W (.neutral ty stuck) := by
  cases S <;>
  · rintro _ ⟨⟩
    exact .inr ⟨ty, stuck, C, rfl, hC, h⟩

theorem representsType_const {c : Const} (h : S.Denotes (.const c)) :
    S.RepresentsType W (.const c) := by
  cases S with
  | univ | nat | atom | trivial | absurd =>
    cases h
    rintro _ ⟨⟩
    exact .inl rfl
  | list | vec => obtain ⟨_, h, -⟩ := h; cases h
  | either => obtain ⟨_, _, h, -⟩ := h; cases h
  | equal | quant => obtain ⟨_, _, _, h, -⟩ := h; cases h

theorem representsType_list (h : A.RepresentsType W e) :
    (list A).RepresentsType W (.list e) := by
  rintro _ ⟨⟩
  exact .inl ⟨e, rfl, h⟩

theorem representsType_vec (h : A.RepresentsType W e) (hl : nat.Represents W l n) :
    (vec A n).RepresentsType W (.vec e l) := by
  rintro _ ⟨⟩
  exact .inl ⟨e, l, rfl, h, hl⟩

theorem representsType_either (hl : A.RepresentsType W l) (hr : B.RepresentsType W r) :
    (either A B).RepresentsType W (.either l r) := by
  rintro _ ⟨⟩
  exact .inl ⟨l, r, rfl, hl, hr⟩

theorem representsType_equal {l' r' : Value} (hs : A.RepresentsType W s)
    (hl : A.Represents W l' l) (hr : A.Represents W r' r) :
    (equal A l r).RepresentsType W (.equal s l' r') := by
  rintro _ ⟨⟩
  exact .inl ⟨s, l', r', rfl, hs, hl, hr⟩

theorem representsType_quant (hbase : A.RepresentsType W base)
    (hfamily : ∀ W' a c, W.Sub W' → A.Represents W' a c → ∀ strategy fuel T,
      family.run strategy fuel a = .ok T → (F c).RepresentsType W' T) :
      (quant q A F).RepresentsType W (.quant q x base family) := by
  rintro _ ⟨⟩
  exact .inl ⟨x, base, family, rfl, hbase, hfamily⟩

theorem representsType_arrow (hA : A.RepresentsType W l) (hB : B.RepresentsType W r) :
    (arrow A B).RepresentsType W (.arrow x l r) := by
  refine representsType_quant hA fun W' a c hW _ strategy fuel T hT => ?_
  cases fuel with
  | zero => cases hT
  | succ fuel =>
    cases hT
    exact hB.mono hW

theorem RepresentsType.of_list (h : S.RepresentsType W T) (hT : T.now = .ok (.list e)) :
    ∃ A, S = list A ∧ A.RepresentsType W e := by
  cases S with
  | list A =>
    obtain ⟨_, he, h⟩ | ⟨_, _, _, he, -⟩ := h _ hT <;> cases he
    exact ⟨A, rfl, h⟩
  | univ | nat | atom | trivial | absurd => obtain h | ⟨_, _, _, h, -⟩ := h _ hT <;> cases h
  | vec | either => obtain ⟨_, _, h, -⟩ | ⟨_, _, _, h, -⟩ := h _ hT <;> cases h
  | equal | quant => obtain ⟨_, _, _, h, -⟩ | ⟨_, _, _, h, -⟩ := h _ hT <;> cases h

theorem RepresentsType.of_vec (h : S.RepresentsType W T) (hT : T.now = .ok (.vec e l)) :
    ∃ A n, S = vec A n ∧ A.RepresentsType W e ∧ nat.Represents W l n := by
  cases S with
  | vec A n =>
    obtain ⟨_, _, he, h⟩ | ⟨_, _, _, he, -⟩ := h _ hT <;> cases he
    exact ⟨A, n, rfl, h⟩
  | univ | nat | atom | trivial | absurd => obtain h | ⟨_, _, _, h, -⟩ := h _ hT <;> cases h
  | list => obtain ⟨_, h, -⟩ | ⟨_, _, _, h, -⟩ := h _ hT <;> cases h
  | either => obtain ⟨_, _, h, -⟩ | ⟨_, _, _, h, -⟩ := h _ hT <;> cases h
  | equal | quant => obtain ⟨_, _, _, h, -⟩ | ⟨_, _, _, h, -⟩ := h _ hT <;> cases h

theorem RepresentsType.of_either (h : S.RepresentsType W T) (hT : T.now = .ok (.either l r)) :
    ∃ A B, S = either A B ∧ A.RepresentsType W l ∧ B.RepresentsType W r := by
  cases S with
  | either A B =>
    obtain ⟨_, _, he, h⟩ | ⟨_, _, _, he, -⟩ := h _ hT <;> cases he
    exact ⟨A, B, rfl, h⟩
  | univ | nat | atom | trivial | absurd => obtain h | ⟨_, _, _, h, -⟩ := h _ hT <;> cases h
  | list => obtain ⟨_, h, -⟩ | ⟨_, _, _, h, -⟩ := h _ hT <;> cases h
  | vec => obtain ⟨_, _, h, -⟩ | ⟨_, _, _, h, -⟩ := h _ hT <;> cases h
  | equal | quant => obtain ⟨_, _, _, h, -⟩ | ⟨_, _, _, h, -⟩ := h _ hT <;> cases h

theorem RepresentsType.of_equal (h : S.RepresentsType W T) (hT : T.now = .ok (.equal s l r)) :
    ∃ A a b, S = equal A a b ∧ A.RepresentsType W s ∧ A.Represents W l a ∧
    A.Represents W r b := by
  cases S with
  | equal A a b =>
    obtain ⟨_, _, _, he, h⟩ | ⟨_, _, _, he, -⟩ := h _ hT <;> cases he
    exact ⟨A, a, b, rfl, h⟩
  | univ | nat | atom | trivial | absurd => obtain h | ⟨_, _, _, h, -⟩ := h _ hT <;> cases h
  | list => obtain ⟨_, h, -⟩ | ⟨_, _, _, h, -⟩ := h _ hT <;> cases h
  | vec | either => obtain ⟨_, _, h, -⟩ | ⟨_, _, _, h, -⟩ := h _ hT <;> cases h
  | quant => obtain ⟨_, _, _, h, -⟩ | ⟨_, _, _, h, -⟩ := h _ hT <;> cases h

theorem RepresentsType.of_quant (h : S.RepresentsType W T)
    (hT : T.now = .ok (.quant q x base family)) :
    ∃ A F, S = quant q A F ∧ A.RepresentsType W base ∧ ∀ W' a c, W.Sub W' →
      A.Represents W' a c →
      ∀ strategy fuel r, family.run strategy fuel a = .ok r → (F c).RepresentsType W' r := by
  cases S with
  | quant q' A F =>
    obtain ⟨_, _, _, he, h⟩ | ⟨_, _, _, he, -⟩ := h _ hT <;> cases he
    exact ⟨A, F, rfl, h⟩
  | univ | nat | atom | trivial | absurd => obtain h | ⟨_, _, _, h, -⟩ := h _ hT <;> cases h
  | list => obtain ⟨_, h, -⟩ | ⟨_, _, _, h, -⟩ := h _ hT <;> cases h
  | vec | either => obtain ⟨_, _, h, -⟩ | ⟨_, _, _, h, -⟩ := h _ hT <;> cases h
  | equal => obtain ⟨_, _, _, h, -⟩ | ⟨_, _, _, h, -⟩ := h _ hT <;> cases h

end Form

end Code

end PieChecker
