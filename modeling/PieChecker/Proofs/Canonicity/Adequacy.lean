import PieChecker.Proofs.Canonicity.Representation
import PieChecker.Proofs.Simulation.ReadBack

set_option autoImplicit false

/-!
# Reading back what represents an element

A value that represents an element reads back to a term that stands for the element, and a
variable represents the element it is given. Both are shown together for one code after the
other, `Adequate`: to read a function back it is applied to a variable, and a function that
waits for a variable keeps its argument, which is read back later.
-/

namespace PieChecker

namespace Instance

variable {W Θ : Instance} {names : List String} {x : String} {e : Code × Value}

theorem sub_cons (h : W.lookup x = none) : W.Sub ((x, e) :: W) := by
  intro y e' hy
  rw [List.lookup_cons]
  split
  · rename_i hyx
    rw [beq_iff_eq.1 hyx, h] at hy
    cases hy
  · exact hy

theorem Sub.cons (h : W.Sub Θ) (x : String) (e : Code × Value) :
    Sub ((x, e) :: W) ((x, e) :: Θ) := by
  intro y e' hy
  rw [List.lookup_cons] at hy ⊢
  split at hy
  · exact hy
  · exact h y e' hy

theorem NamedIn.cons (h : Θ.NamedIn names) (x : String) (e : Code × Value) :
    NamedIn ((x, e) :: Θ) (x :: names) := by
  intro y e' hy
  rw [List.lookup_cons] at hy
  split at hy
  · rename_i hyx
    exact List.mem_cons.2 (.inl (beq_iff_eq.1 hyx))
  · exact List.mem_cons_of_mem x (h y e' hy)

theorem Sub.namedIn (h : W.Sub Θ) (hΘ : Θ.NamedIn names) : W.NamedIn names :=
  fun x e hx => hΘ x e (h x e hx)

theorem NamedIn.lookup_eq_none (h : Θ.NamedIn names) (hx : x ∉ names) : Θ.lookup x = none := by
  cases hlookup : Θ.lookup x with
  | none => rfl
  | some e => exact absurd (h x e hlookup) hx

end Instance

/-- A variable stands for the element it is given. -/
theorem Neutral.readsAs_var {W : Instance} {x : String} {S : Code} {w : Value}
    (h : W.lookup x = some (S, w)) :
    (Neutral.var x).ReadsAs W S w := by
  intro Θ names strategy fuel t hΘ _ ht
  cases fuel with
  | zero => cases ht
  | succ fuel =>
    cases ht
    exact .var (hΘ x _ h)

namespace Code

open Value

/-- What read-back and variables have to do with the elements of a type. -/
structure Adequate (S : Code) : Prop where
  /-- A value reads back to a term for the element that it represents. -/
  reify : ∀ {W Θ : Instance} {names : List String} {strategy : Strategy} {fuel : Nat}
    {T v w : Value} {t : Core}, S.Denoted → S.RepresentsType W T → S.Represents W v w →
    W.Sub Θ → Θ.NamedIn names → T.readBack strategy fuel names v = .ok t →
    Derives Θ t (.element w S)
  /-- A type reads back to a term for the type that it represents. -/
  reifyType : ∀ {W Θ : Instance} {names : List String} {strategy : Strategy} {fuel : Nat}
    {T : Value} {t : Core}, S.Denoted → S.RepresentsType W T → W.Sub Θ → Θ.NamedIn names →
    T.readBackType strategy fuel names = .ok t → Derives Θ t (.type S)
  /-- A stuck elimination represents the element that it stands for. -/
  reflect : ∀ {W : Instance} {T w : Value} {stuck : Neutral}, S.Denoted → S.RepresentsType W T →
    S.Relates w w → stuck.ReadsAs W S w → S.Represents W (.neutral T stuck) w

section

variable {W Θ : Instance} {S : Code} {names : List String} {strategy : Strategy} {fuel : Nat}
  {T u v w : Value}
variable {t : Core}

/-- A type that is stuck reads back to what it stands for, whatever its code. -/
theorem derives_of_neutral_type {ty : Value} {stuck : Neutral} (hT : S.RepresentsType W T)
    (hnow : T.now = .ok (.neutral ty stuck)) (hΘ : W.Sub Θ) (hnames : Θ.NamedIn names)
    (ht : stuck.readBack strategy fuel names = .ok t) : Derives Θ t (.type S) := by
  obtain ⟨C, hC, hreads⟩ := hT.readsAs hnow
  exact (hreads Θ names strategy fuel t hΘ hnames ht).el hC

/-- At a type that is stuck, only stuck values are read back. -/
theorem derives_of_neutral {ty : Value} {stuck : Neutral} (hv : S.Represents W v w)
    (hT : T.now = .ok (.neutral ty stuck)) (hΘ : W.Sub Θ) (hnames : Θ.NamedIn names)
    (ht : T.readBack strategy fuel names v = .ok t) :
    Derives Θ t (.element w S) := by
  cases fuel with
  | zero => cases ht
  | succ fuel =>
    rw [Value.readBack] at ht
    obtain ⟨_, hT', ht⟩ := bind_eq_ok_iff.1 ht
    rw [hT] at hT'
    cases hT'
    obtain ⟨u, hu, ht⟩ := bind_eq_ok_iff.1 ht
    cases u with
    | neutral ty' stuck' => exact hv.readsAs hu Θ names strategy fuel t hΘ hnames ht
    | _ => cases ht

/-- To read a type back it is forced. What remains is to read a type former back. -/
theorem reifyType_of_form {form : Value → Prop} (hT : S.RepresentsType W T)
    (hform : TypeForm W S form T) (hΘ : W.Sub Θ) (hnames : Θ.NamedIn names)
    (ht : T.readBackType strategy fuel names = .ok t)
    (hread : ∀ n former, form former → former.readBackType strategy (n + 1) names = .ok t →
      Derives Θ t (.type S)) :
    Derives Θ t (.type S) := by
  cases fuel with
  | zero => cases ht
  | succ n =>
    rw [Value.readBackType] at ht
    obtain ⟨former, hformer, ht⟩ := bind_eq_ok_iff.1 ht
    obtain h | ⟨_, _, _, rfl, -⟩ := hform former hformer
    · refine hread n former h ?_
      rw [Value.readBackType, hT.settled hformer]
      exact ht
    · exact derives_of_neutral_type hT hformer hΘ hnames ht

/-- Types of a constant form read back to the constant. -/
theorem reifyType_const {c : Const} (hS : S.Denotes (.const c)) (hT : S.RepresentsType W T)
    (hΘ : W.Sub Θ) (hnames : Θ.NamedIn names)
    (ht : T.readBackType strategy fuel names = .ok t) : Derives Θ t (.type S) := by
  cases S with
  | univ | nat | atom | trivial | absurd =>
    refine reifyType_of_form hT hT hΘ hnames ht fun n former hformer ht => ?_
    cases hformer
    cases ht
    exact .const rfl
  | list | vec => obtain ⟨_, h, -⟩ := hS; cases h
  | either => obtain ⟨_, _, h, -⟩ := hS; cases h
  | equal | quant => obtain ⟨_, _, _, h, -⟩ := hS; cases h

theorem isOpen_neutral {stuck : Neutral} (hw : S.Relates w w) (h : stuck.ReadsAs W S w) :
    IsOpen W S (.neutral T stuck) w := by
  refine ⟨hw, ?_, ?_⟩
  · rintro _ ⟨⟩
    rfl
  · rintro _ _ ⟨⟩
    exact h

theorem blocked_neutral {stuck : Neutral} {typed : Value → Prop} (hw : S.Relates w w)
    (hT : typed T) (h : stuck.ReadsAs W S w) : Blocked W S typed (.neutral T stuck) w :=
  ⟨hw, .inr ⟨T, stuck, rfl, hT, h⟩⟩

/-- To read a value back, its type and the value are forced. At a stuck type the value is stuck
too; what remains is to read it back at a type former. -/
theorem reify_of_form {form : Value → Prop} (hT : S.RepresentsType W T)
    (hform : TypeForm W S form T) (hv : S.Represents W v w) (hΘ : W.Sub Θ)
    (hnames : Θ.NamedIn names) (ht : T.readBack strategy fuel names v = .ok t)
    (hread : ∀ n former u, form former → v.now = .ok u →
      former.readBack strategy (n + 1) names u = .ok t → Derives Θ t (.element w S)) :
      Derives Θ t (.element w S) := by
  have ht₀ := ht
  cases fuel with
  | zero => cases ht
  | succ n =>
    rw [Value.readBack] at ht
    obtain ⟨former, hformer, ht⟩ := bind_eq_ok_iff.1 ht
    obtain ⟨u, hu, ht⟩ := bind_eq_ok_iff.1 ht
    obtain h | ⟨_, _, _, rfl, -⟩ := hform former hformer
    · refine hread n former u h hu ?_
      rw [Value.readBack, hT.settled hformer, hv.settled hu]
      exact ht
    · exact derives_of_neutral hv hformer hΘ hnames ht₀

/-- The same for a value that is blocked: it is read back as a stuck elimination. -/
theorem reify_of_blocked {form typed : Value → Prop} (hT : S.RepresentsType W T)
    (hform : TypeForm W S form T) (hv : S.Represents W v w) (hblocked : Blocked W S typed v w)
    (hΘ : W.Sub Θ) (hnames : Θ.NamedIn names) (ht : T.readBack strategy fuel names v = .ok t)
    (hread : ∀ n former ty stuck, form former →
      former.readBack strategy (n + 1) names (.neutral ty stuck) = .ok t →
      stuck.readBack strategy n names = .ok t) : Derives Θ t (.element w S) := by
  refine reify_of_form hT hform hv hΘ hnames ht fun n former u hformer hu ht => ?_
  obtain ⟨-, ⟨stop, h⟩ | ⟨ty, stuck, h, -, hreads⟩⟩ := hblocked <;> rw [h] at hu <;> cases hu
  exact hreads Θ names strategy n t hΘ hnames (hread n former ty stuck hformer ht)

/-! ## Types without parts -/

theorem adequate_nat : nat.Adequate where
  reify {W Θ names strategy fuel T v w t} _ hT hv hΘ hnames ht := by
    change NatForm _ v w at hv
    induction hv generalizing T fuel t with
    | zero h =>
      refine reify_of_form hT hT (.zero h) hΘ hnames ht fun n former u hformer hu ht => ?_
      cases hformer
      cases h.symm.trans hu
      cases ht
      exact .zero
    | add1 h hp ih =>
      refine reify_of_form hT hT (.add1 h hp) hΘ hnames ht fun n former u hformer hu ht => ?_
      cases hformer
      cases h.symm.trans hu
      obtain ⟨_, ⟨⟩, ht⟩ := bind_eq_ok_iff.1 ht
      obtain ⟨_, ⟨⟩, ht⟩ := bind_eq_ok_iff.1 ht
      obtain ⟨t', ht', ⟨⟩⟩ := bind_eq_ok_iff.1 ht
      exact .add1 (ih (representsType_const (c := .nat) rfl) ht')
    | blocked h =>
      refine reify_of_blocked hT hT (.blocked h) h hΘ hnames ht
        fun n former ty stuck hformer ht => ?_
      cases hformer
      exact ht
  reifyType _ hT hΘ hnames ht := reifyType_const (c := .nat) rfl hT hΘ hnames ht
  reflect _ _ hw hreads := .blocked (blocked_neutral hw True.intro hreads)

theorem adequate_atom : atom.Adequate where
  reify {W Θ names strategy fuel T v w t} _ hT hv hΘ hnames ht := by
    obtain ⟨a, h, rfl⟩ | h := id hv
    · refine reify_of_form hT hT hv hΘ hnames ht fun n former u hformer hu ht => ?_
      cases hformer
      cases h.symm.trans hu
      cases ht
      exact .quote a
    · refine reify_of_blocked hT hT hv h hΘ hnames ht fun n former ty stuck hformer ht => ?_
      cases hformer
      exact ht
  reifyType _ hT hΘ hnames ht := reifyType_const (c := .atom) rfl hT hΘ hnames ht
  reflect _ _ hw hreads := .inr (blocked_neutral hw True.intro hreads)

theorem adequate_trivial : trivial.Adequate where
  reify {W Θ names strategy fuel T v w t} _ hT hv hΘ hnames ht := by
    refine reify_of_form hT hT hv hΘ hnames ht fun n former u hformer hu ht => ?_
    cases hformer
    obtain ⟨_, ⟨⟩, ht⟩ := bind_eq_ok_iff.1 ht
    obtain ⟨_, _, ⟨⟩⟩ := bind_eq_ok_iff.1 ht
    obtain ⟨rfl, -⟩ := hv.1
    exact .sole
  reifyType _ hT hΘ hnames ht := reifyType_const (c := .trivial) rfl hT hΘ hnames ht
  reflect _ _ hw hreads := isOpen_neutral hw hreads

theorem adequate_absurd : absurd.Adequate where
  reify _ _ hv := hv.elim
  reifyType _ hT hΘ hnames ht := reifyType_const (c := .absurd) rfl hT hΘ hnames ht
  reflect _ _ hw := hw.elim

/-- The universe, if its elements are read back to what they represent. -/
theorem adequate_univ (h : ∀ S : Code, S.Small → S.Adequate) : univ.Adequate where
  reify {W Θ names strategy fuel T v w t} _ hT hv hΘ hnames ht := by
    refine reify_of_form hT hT hv hΘ hnames ht fun n former u hformer hu ht => ?_
    cases hformer
    obtain ⟨S, hS, hSv, hSw⟩ := represents_univ_iff.1 hv
    obtain ⟨_, ⟨⟩, ht⟩ := bind_eq_ok_iff.1 ht
    obtain ⟨_, hu', ht⟩ := bind_eq_ok_iff.1 ht
    cases (hv.settled hu).symm.trans hu'
    exact ((h S hS).reifyType ⟨w, hSw⟩ (hSv.forced hu) hΘ hnames ht).small hS hSw
  reifyType _ hT hΘ hnames ht := reifyType_const (c := .univ) rfl hT hΘ hnames ht
  reflect {W T w stuck} _ _ hw hreads := by
    obtain ⟨S, hS, hSw, -⟩ := relates_univ_iff.1 hw
    exact represents_univ_iff.2 ⟨S, hS, representsType_neutral hSw hreads, hSw⟩

/-! ## Lists, sums and equalities -/

theorem adequate_list {A : Code} (hA : A.Adequate) : (list A).Adequate where
  reify {W Θ names strategy fuel T v w t} hS hT hv hΘ hnames ht := by
    change ListForm _ _ v w at hv
    induction hv generalizing T fuel t with
    | nil h =>
      refine reify_of_form hT hT (.nil h) hΘ hnames ht fun n former u hformer hu ht => ?_
      obtain ⟨e, rfl, he⟩ := hformer
      cases h.symm.trans hu
      cases ht
      exact .nil hS.list_entry
    | cons h ha has ih =>
      refine reify_of_form hT hT (.cons h ha has) hΘ hnames ht
        fun n former u hformer hu ht => ?_
      obtain ⟨e, rfl, he⟩ := hformer
      cases h.symm.trans hu
      obtain ⟨_, ⟨⟩, ht⟩ := bind_eq_ok_iff.1 ht
      obtain ⟨_, ⟨⟩, ht⟩ := bind_eq_ok_iff.1 ht
      obtain ⟨head, hhead, ht⟩ := bind_eq_ok_iff.1 ht
      obtain ⟨tail, htail, ⟨⟩⟩ := bind_eq_ok_iff.1 ht
      exact .listCons (hA.reify hS.list_entry he ha hΘ hnames hhead)
        (ih (representsType_list he) htail)
    | blocked h =>
      refine reify_of_blocked hT hT (.blocked h) h hΘ hnames ht
        fun n former ty stuck hformer ht => ?_
      obtain ⟨e, rfl, he⟩ := hformer
      exact ht
  reifyType {W Θ names strategy fuel T t} hS hT hΘ hnames ht := by
    refine reifyType_of_form hT hT hΘ hnames ht fun n former hformer ht => ?_
    obtain ⟨e, rfl, he⟩ := hformer
    obtain ⟨_, ⟨⟩, ht⟩ := bind_eq_ok_iff.1 ht
    obtain ⟨t', ht', ⟨⟩⟩ := bind_eq_ok_iff.1 ht
    exact .list (hA.reifyType hS.list_entry he hΘ hnames ht')
  reflect {W T w stuck} _ hT hw hreads := by
    refine .blocked (blocked_neutral hw (fun e he => ?_) hreads)
    obtain ⟨_, h, hA⟩ := RepresentsType.of_list hT he
    cases h
    exact hA

theorem isNumber_pred {p l n : Value} (h : nat.Represents W l (.add1 n))
    (hl : l.now = .ok (.add1 p)) :
    nat.Represents W p n := by
  change NatForm _ l _ at h
  cases h with
  | add1 h hp =>
    cases h.symm.trans hl
    exact hp
  | blocked h => obtain ⟨-, ⟨_, h⟩ | ⟨_, _, h, -⟩⟩ := h <;> cases h.symm.trans hl

theorem adequate_vec {A : Code} {n : Value} (hA : A.Adequate) : (vec A n).Adequate where
  reify {W Θ names strategy fuel T v w t} hS hT hv hΘ hnames ht := by
    change VecForm _ _ n v w at hv
    induction hv generalizing T fuel t with
    | nil h =>
      refine reify_of_form hT hT (.nil h) hΘ hnames ht fun n former u hformer hu ht => ?_
      obtain ⟨e, l, rfl, he, hl⟩ := hformer
      cases h.symm.trans hu
      cases ht
      exact .vecnil hS.vec_entry
    | cons h ha has ih =>
      refine reify_of_form hT hT (.cons h ha has) hΘ hnames ht
        fun n former u hformer hu ht => ?_
      obtain ⟨e, l, rfl, he, hl⟩ := hformer
      cases h.symm.trans hu
      obtain ⟨_, ⟨⟩, ht⟩ := bind_eq_ok_iff.1 ht
      obtain ⟨_, ⟨⟩, ht⟩ := bind_eq_ok_iff.1 ht
      obtain ⟨length, hlength, ht⟩ := bind_eq_ok_iff.1 ht
      split at ht
      · obtain ⟨head, hhead, ht⟩ := bind_eq_ok_iff.1 ht
        obtain ⟨tail, htail, ⟨⟩⟩ := bind_eq_ok_iff.1 ht
        have hp := isNumber_pred hl hlength
        refine .vecCons (hA.reify hS.vec_entry he ha hΘ hnames hhead)
          (ih ?_ (representsType_vec he hp) htail)
        exact denoted_vec hS.vec_entry hp.relates.2
      · cases ht
    | blocked h =>
      refine reify_of_blocked hT hT (.blocked h) h hΘ hnames ht
        fun n former ty stuck hformer ht => ?_
      obtain ⟨e, l, rfl, he, hl⟩ := hformer
      exact ht
  reifyType {W Θ names strategy fuel T t} hS hT hΘ hnames ht := by
    refine reifyType_of_form hT hT hΘ hnames ht fun n former hformer ht => ?_
    obtain ⟨e, l, rfl, he, hl⟩ := hformer
    obtain ⟨_, ⟨⟩, ht⟩ := bind_eq_ok_iff.1 ht
    obtain ⟨et, het, ht⟩ := bind_eq_ok_iff.1 ht
    obtain ⟨lt, hlt, ⟨⟩⟩ := bind_eq_ok_iff.1 ht
    exact .vec (hA.reifyType hS.vec_entry he hΘ hnames het)
      (adequate_nat.reify denoted_nat (representsType_const (c := .nat) rfl) hl hΘ hnames hlt)
  reflect {W T w stuck} _ hT hw hreads := by
    refine .blocked (blocked_neutral hw (fun e l hel => ?_) hreads)
    obtain ⟨_, _, h, hA⟩ := RepresentsType.of_vec hT hel
    cases h
    exact hA

theorem adequate_either {A B : Code} (hA : A.Adequate) (hB : B.Adequate) :
    (either A B).Adequate where
  reify {W Θ names strategy fuel T v w t} hS hT hv hΘ hnames ht := by
    change SumForm _ _ _ v w at hv
    cases hv with
    | left h ha =>
      refine reify_of_form hT hT (.left h ha) hΘ hnames ht fun n former u hformer hu ht => ?_
      obtain ⟨l, r, rfl, hl, hr⟩ := hformer
      cases h.symm.trans hu
      obtain ⟨_, ⟨⟩, ht⟩ := bind_eq_ok_iff.1 ht
      obtain ⟨_, ⟨⟩, ht⟩ := bind_eq_ok_iff.1 ht
      obtain ⟨t', ht', ⟨⟩⟩ := bind_eq_ok_iff.1 ht
      exact .left (hA.reify hS.either_left hl ha hΘ hnames ht') hS.either_right
    | right h ha =>
      refine reify_of_form hT hT (.right h ha) hΘ hnames ht fun n former u hformer hu ht => ?_
      obtain ⟨l, r, rfl, hl, hr⟩ := hformer
      cases h.symm.trans hu
      obtain ⟨_, ⟨⟩, ht⟩ := bind_eq_ok_iff.1 ht
      obtain ⟨_, ⟨⟩, ht⟩ := bind_eq_ok_iff.1 ht
      obtain ⟨t', ht', ⟨⟩⟩ := bind_eq_ok_iff.1 ht
      exact .right (hB.reify hS.either_right hr ha hΘ hnames ht') hS.either_left
    | blocked h =>
      refine reify_of_blocked hT hT (.blocked h) h hΘ hnames ht
        fun n former ty stuck hformer ht => ?_
      obtain ⟨l, r, rfl, hl, hr⟩ := hformer
      exact ht
  reifyType {W Θ names strategy fuel T t} hS hT hΘ hnames ht := by
    refine reifyType_of_form hT hT hΘ hnames ht fun n former hformer ht => ?_
    obtain ⟨l, r, rfl, hl, hr⟩ := hformer
    obtain ⟨_, ⟨⟩, ht⟩ := bind_eq_ok_iff.1 ht
    obtain ⟨lt, hlt, ht⟩ := bind_eq_ok_iff.1 ht
    obtain ⟨rt, hrt, ⟨⟩⟩ := bind_eq_ok_iff.1 ht
    exact .either (hA.reifyType hS.either_left hl hΘ hnames hlt)
      (hB.reifyType hS.either_right hr hΘ hnames hrt)
  reflect {W T w stuck} _ hT hw hreads := by
    refine .blocked (blocked_neutral hw (fun l r hlr => ?_) hreads)
    obtain ⟨_, _, h, hA⟩ := RepresentsType.of_either hT hlr
    cases h
    exact hA

theorem adequate_equal {A : Code} {l r : Value} (hA : A.Adequate) : (equal A l r).Adequate where
  reify {W Θ names strategy fuel T v w t} hS hT hv hΘ hnames ht := by
    obtain ⟨p, c, h, rfl, hp, hc, hlr⟩ | h := id hv
    · refine reify_of_form hT hT hv hΘ hnames ht fun n former u hformer hu ht => ?_
      obtain ⟨s, l', r', rfl, hs, -, -⟩ := hformer
      cases h.symm.trans hu
      obtain ⟨_, ⟨⟩, ht⟩ := bind_eq_ok_iff.1 ht
      obtain ⟨_, ⟨⟩, ht⟩ := bind_eq_ok_iff.1 ht
      obtain ⟨t', ht', ⟨⟩⟩ := bind_eq_ok_iff.1 ht
      have hspace := hS.equal_space
      exact (hA.reify hspace hs hp hΘ hnames ht').same.conv
        (agree_equal hspace hc (hspace.equivalence.trans hc hlr))
    · refine reify_of_blocked hT hT hv h hΘ hnames ht fun n former ty stuck hformer ht => ?_
      obtain ⟨s, l', r', rfl, -, -, -⟩ := hformer
      exact ht
  reifyType {W Θ names strategy fuel T t} hS hT hΘ hnames ht := by
    refine reifyType_of_form hT hT hΘ hnames ht fun n former hformer ht => ?_
    obtain ⟨s, l', r', rfl, hs, hl, hr⟩ := hformer
    obtain ⟨_, ⟨⟩, ht⟩ := bind_eq_ok_iff.1 ht
    obtain ⟨st, hst, ht⟩ := bind_eq_ok_iff.1 ht
    obtain ⟨lt, hlt, ht⟩ := bind_eq_ok_iff.1 ht
    obtain ⟨rt, hrt, ⟨⟩⟩ := bind_eq_ok_iff.1 ht
    have hspace := hS.equal_space
    exact .equal (hA.reifyType hspace hs hΘ hnames hst) (hA.reify hspace hs hl hΘ hnames hlt)
      (hA.reify hspace hs hr hΘ hnames hrt)
  reflect {W T w stuck} _ hT hw hreads := by
    refine .inr (blocked_neutral hw (fun s l' r' h => ?_) hreads)
    obtain ⟨_, _, _, heq, hA⟩ := RepresentsType.of_equal hT h
    cases heq
    exact hA

/-! ## Functions and pairs -/

/-- A new variable represents the element it is given. -/
theorem represents_var {A : Code} {base a : Value} {y : String} (hA : A.Adequate)
    (hdenoted : A.Denoted) (hbase : A.RepresentsType W base) (ha : A.Relates a a)
    (hy : W.lookup y = none) :
    A.Represents ((y, A, a) :: W) (.var y base) a :=
  hA.reflect hdenoted (hbase.mono (Instance.sub_cons hy)) ha
    (Neutral.readsAs_var List.lookup_cons_self)

theorem reifyType_quant {q : Quantifier} {A : Code} {F : Value → Code} (hA : A.Adequate)
    (hF : ∀ a, (F a).Adequate) (hS : (quant q A F).Denoted)
    (hT : (quant q A F).RepresentsType W T) (hΘ : W.Sub Θ) (hnames : Θ.NamedIn names)
    (ht : T.readBackType strategy fuel names = .ok t) : Derives Θ t (.type (quant q A F)) := by
  refine reifyType_of_form hT hT hΘ hnames ht fun n former hformer ht => ?_
  obtain ⟨x, base, family, rfl, hbase, hfamily⟩ := hformer
  obtain ⟨_, ⟨⟩, ht⟩ := bind_eq_ok_iff.1 ht
  obtain ⟨y, hy, ht⟩ := bind_eq_ok_iff.1 ht
  obtain ⟨baseTerm, hbaseTerm, ht⟩ := bind_eq_ok_iff.1 ht
  obtain ⟨result, hresult, ht⟩ := bind_eq_ok_iff.1 ht
  obtain ⟨familyTerm, hfamilyTerm, ⟨⟩⟩ := bind_eq_ok_iff.1 ht
  have hfresh := (hΘ.namedIn hnames).lookup_eq_none (Name.freshen_not_mem hy)
  refine .quant q (hA.reifyType hS.base hbase hΘ hnames hbaseTerm) fun a ha => ?_
  have hvar := represents_var hA hS.base hbase ha hfresh
  have hresultType := hfamily _ _ _ (Instance.sub_cons hfresh) hvar _ _ _ hresult
  exact (hF a).reifyType (hS.family ha).left hresultType (hΘ.cons y _)
    (hnames.cons y _) hfamilyTerm

/-- A stuck function applied to an argument stands for the result. -/
theorem readsAs_apply {A : Code} {F : Value → Code} {base a c s : Value} {stuck : Neutral}
    (hA : A.Adequate) (hdenoted : A.Denoted) (hstuck : stuck.ReadsAs W (quant .pi A F) w)
    (hbase : A.RepresentsType W base) (ha : A.Represents W a c) (hs : w.Applies c s) :
    (Neutral.apply stuck ⟨base, a⟩).ReadsAs W (F c) s := by
  intro Θ names strategy fuel t hΘ hnames ht
  cases fuel with
  | zero => cases ht
  | succ fuel =>
    rw [Neutral.readBack] at ht
    obtain ⟨ft, hft, ht⟩ := bind_eq_ok_iff.1 ht
    obtain ⟨at', hat, ⟨⟩⟩ := bind_eq_ok_iff.1 ht
    exact .apply (hstuck Θ names strategy fuel ft hΘ hnames hft)
      (hA.reify hdenoted hbase ha hΘ hnames hat) hs

theorem adequate_pi {A : Code} {F : Value → Code} (hA : A.Adequate) (hF : ∀ a, (F a).Adequate) :
    (quant .pi A F).Adequate where
  reify {W Θ names strategy fuel T v w t} hS hT hv hΘ hnames ht := by
    refine reify_of_form hT hT hv hΘ hnames ht fun n former u hformer hu ht => ?_
    obtain ⟨x, base, family, rfl, hbase, hfamily⟩ := hformer
    obtain ⟨_, ⟨⟩, ht⟩ := bind_eq_ok_iff.1 ht
    obtain ⟨_, hu', ht⟩ := bind_eq_ok_iff.1 ht
    cases (hv.settled hu).symm.trans hu'
    obtain ⟨y, hy, ht⟩ := bind_eq_ok_iff.1 ht
    obtain ⟨result, hresult, ht⟩ := bind_eq_ok_iff.1 ht
    obtain ⟨body, hbody, ht⟩ := bind_eq_ok_iff.1 ht
    obtain ⟨bodyTerm, hbodyTerm, ⟨⟩⟩ := bind_eq_ok_iff.1 ht
    have hfresh := (hΘ.namedIn hnames).lookup_eq_none (Name.freshen_not_mem hy)
    -- The result at each argument is determined by the function that is represented.
    have hresults : ∀ a, ∃ r, A.Relates a a → w.Applies a r := by
      intro a
      by_cases ha : A.Relates a a
      · obtain ⟨r, _, hr, -⟩ := hv.relates a a ha
        exact ⟨r, fun _ => hr⟩
      · exact ⟨a, fun h => (ha h).elim⟩
    obtain ⟨r, hr⟩ := Classical.skolem.1 hresults
    refine .lam hS hv.relates hr fun a ha => ?_
    have hvar := represents_var hA hS.base hbase ha hfresh
    have hsub := Instance.sub_cons (e := (A, a)) hfresh
    obtain ⟨s, hs, hbodys⟩ := (represents_pi_iff.1 (hv.forced hu)).2 _ _ _ hsub hvar _ _ _ hbody
    obtain rfl := hs.unique (hr a ha)
    exact (hF a).reify (hS.family ha).left (hfamily _ _ _ hsub hvar _ _ _ hresult) hbodys
      (hΘ.cons y _) (hnames.cons y _) hbodyTerm
  reifyType := reifyType_quant hA hF
  reflect {W T w stuck} hS hT hw hreads := by
    refine represents_pi_iff.2 ⟨isOpen_neutral hw hreads,
      fun W' a c hW hc strategy fuel r hr => ?_⟩
    cases fuel with
    | zero => cases hr
    | succ fuel =>
      rw [Value.apply] at hr
      obtain ⟨_, ⟨⟩, hr⟩ := bind_eq_ok_iff.1 hr
      obtain ⟨ty, hty, hr⟩ := bind_eq_ok_iff.1 hr
      split at hr
      · obtain ⟨result, hresult, ⟨⟩⟩ := bind_eq_ok_iff.1 hr
        obtain ⟨_, _, heq, hbase, hfamily⟩ := hT.of_quant hty
        cases heq
        obtain ⟨s, s', hs, hs', hss'⟩ := hw c c hc.relates
        obtain rfl := hs.unique hs'
        exact ⟨s, hs, (hF c).reflect (hS.family hc.relates).left
          (hfamily _ _ _ hW hc _ _ _ hresult) hss'
          (readsAs_apply hA hS.base (hreads.mono hW) (hbase.mono hW) hc hs)⟩
      · cases hr

theorem adequate_sigma {A : Code} {F : Value → Code} (hA : A.Adequate)
    (hF : ∀ a, (F a).Adequate) :
    (quant .sigma A F).Adequate where
  reify {W Θ names strategy fuel T v w t} hS hT hv hΘ hnames ht := by
    refine reify_of_form hT hT hv hΘ hnames ht fun n former u hformer hu ht => ?_
    obtain ⟨x, base, family, rfl, hbase, hfamily⟩ := hformer
    obtain ⟨_, ⟨⟩, ht⟩ := bind_eq_ok_iff.1 ht
    obtain ⟨_, hu', ht⟩ := bind_eq_ok_iff.1 ht
    cases (hv.settled hu).symm.trans hu'
    obtain ⟨a, ha, ht⟩ := bind_eq_ok_iff.1 ht
    obtain ⟨result, hresult, ht⟩ := bind_eq_ok_iff.1 ht
    obtain ⟨d, hd, ht⟩ := bind_eq_ok_iff.1 ht
    obtain ⟨dt, hdt, ht⟩ := bind_eq_ok_iff.1 ht
    obtain ⟨at', hat, ⟨⟩⟩ := bind_eq_ok_iff.1 ht
    obtain ⟨-, c, e, rfl, hcar, hcdr⟩ := represents_sigma_iff.1 (hv.forced hu)
    have hc := hcar a ha
    exact .cons hS (hA.reify hS.base hbase hc hΘ hnames hat)
      ((hF c).reify (hS.family hc.relates).left (hfamily _ _ _ (.refl W) hc _ _ _ hresult)
        (hcdr _ _ _ hd) hΘ hnames hdt)
  reifyType := reifyType_quant hA hF
  reflect {W T w stuck} hS hT hw hreads := by
    have hopen := isOpen_neutral (T := T) hw hreads
    obtain ⟨c, d, _, _, rfl, h, hc, hd⟩ := hw
    cases h
    have hproject : ∀ {o : Neutral.Projection} {S : Code} {w : Value},
        (∀ {Θ t}, Derives Θ t (.element (.cons c d) (quant .sigma A F)) →
          Derives Θ (.unary o.operator t) (.element w S)) →
          (Neutral.project o stuck).ReadsAs W S w := by
      intro o S w hrule Θ names strategy fuel t hΘ hnames ht
      cases fuel with
      | zero => cases ht
      | succ fuel =>
        rw [Neutral.readBack] at ht
        obtain ⟨t', ht', ⟨⟩⟩ := bind_eq_ok_iff.1 ht
        exact hrule (hreads Θ names strategy fuel t' hΘ hnames ht')
    have hcar : ∀ a, (Value.neutral T stuck).car = .ok a → A.Represents W a c := by
      intro a ha
      obtain ⟨_, ⟨⟩, ha⟩ := bind_eq_ok_iff.1 ha
      obtain ⟨ty, hty, ha⟩ := bind_eq_ok_iff.1 ha
      split at ha
      · cases ha
        obtain ⟨_, _, heq, hbase, -⟩ := hT.of_quant hty
        cases heq
        exact hA.reflect hS.base hbase hc (hproject (o := .car) .car)
      · cases ha
    refine represents_sigma_iff.2 ⟨hopen, c, d, rfl, hcar, fun strategy fuel r hr => ?_⟩
    obtain ⟨_, ⟨⟩, hr⟩ := bind_eq_ok_iff.1 hr
    obtain ⟨ty, hty, hr⟩ := bind_eq_ok_iff.1 hr
    split at hr
    · obtain ⟨a, ha, hr⟩ := bind_eq_ok_iff.1 hr
      obtain ⟨result, hresult, ⟨⟩⟩ := bind_eq_ok_iff.1 hr
      obtain ⟨_, _, heq, -, hfamily⟩ := hT.of_quant hty
      cases heq
      exact (hF c).reflect (hS.family hc).left
        (hfamily _ _ _ (.refl W) (hcar a ha) _ _ _ hresult) hd (hproject (o := .cdr) .cdr)
    · cases hr

end

/-- By induction on the code, for small codes first: elements of the universe are types with
small codes. -/
theorem adequate_of_small {S : Code} (h : S.Small ∨ ∀ S' : Code, S'.Small → S'.Adequate) :
    S.Adequate := by
  induction S with
  | univ => exact adequate_univ (h.resolve_left id)
  | nat => exact adequate_nat
  | atom => exact adequate_atom
  | trivial => exact adequate_trivial
  | absurd => exact adequate_absurd
  | list A ih => exact adequate_list (ih h)
  | vec A n ih => exact adequate_vec (ih h)
  | either A B ihA ihB =>
    exact adequate_either (ihA (h.imp_left And.left)) (ihB (h.imp_left And.right))
  | equal A l r ih => exact adequate_equal (ih h)
  | quant q A F ihA ihF =>
    have hA := ihA (h.imp_left And.left)
    have hF := fun a => ihF a (h.imp_left fun h => h.2 a)
    cases q with
    | pi => exact adequate_pi hA hF
    | sigma => exact adequate_sigma hA hF

theorem adequate (S : Code) :
    S.Adequate := adequate_of_small (.inr fun _ hS => adequate_of_small (.inl hS))

end Code

end PieChecker
