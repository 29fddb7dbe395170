import PieChecker.Proofs.Canonicity.Models
import PieChecker.Typing.Rules

set_option autoImplicit false

/-!
# What accepted expressions mean

In every instance of its scope, an expression that is accepted and has no unfinished parts is
elaborated to a term that stands for a closed element of its type, or for a closed type.
`Rules.Sound` says so of the three readings of an expression, and there is one lemma for each
way in which readings are built from the readings of parts.

A binder is read once but means something in many instances of its scope: its variable may be
given any element of its type. What is promised of the one term that is returned is therefore
promised for all of them, by `Yields.all`.
-/

namespace PieChecker

/-- A small type is behind every element of the universe. -/
theorem Derives.exists_small {Θ : Instance} {t : Core} {w : Value}
    (h : Derives Θ t (.element w .univ)) (hΘ : Θ.Valid) :
    ∃ C : Code, C.Small ∧ Derives Θ t (.type C) := by
  obtain ⟨C, hsmall, hC, -⟩ := Code.relates_univ_iff.1 (h.relates hΘ)
  exact ⟨C, hsmall, h.el hC⟩

theorem Derives.exists_numeral (Θ : Instance) (n : Nat) :
    ∃ w, Derives Θ (.numeral n) (.element w .nat) := by
  induction n with
  | zero => exact ⟨.zero, .zero⟩
  | succ n ih =>
    obtain ⟨w, hw⟩ := ih
    exact ⟨.add1 w, hw.add1⟩

namespace Code

theorem Represents.of_zero {W : Instance} {l n : Value} (h : nat.Represents W l n)
    (hl : l.now = .ok .zero) :
    n = .zero := by
  cases h with
  | zero => rfl
  | add1 h => cases hl.symm.trans h
  | blocked h =>
    obtain ⟨-, ⟨stop, h⟩ | ⟨T, stuck, h, -⟩⟩ := h <;> cases hl.symm.trans h

theorem Represents.of_add1 {W : Instance} {l p n : Value} (h : nat.Represents W l n)
    (hl : l.now = .ok (.add1 p)) :
    ∃ m, n = .add1 m ∧ nat.Represents W p m := by
  cases h with
  | zero h => cases hl.symm.trans h
  | add1 h hp =>
    cases hl.symm.trans h
    exact ⟨_, rfl, hp⟩
  | blocked h =>
    obtain ⟨-, ⟨stop, h⟩ | ⟨T, stuck, h, -⟩⟩ := h <;> cases hl.symm.trans h

theorem exists_vecCons {A : Code} {n w : Value} (h : (vec A (.add1 n)).Relates w w) :
    ∃ a as, w = .vecCons a as := by
  cases h with
  | cons => exact ⟨_, _, rfl⟩

end Code

namespace Scope

variable (S : Scope)

theorem bindFree_extends (Γ : Context) (span : Span) (x : String) (ty : Value) :
    Yields (fun Γ' => x ∉ Γ.names ∧ Γ' = Γ.extendFree x ty)
      (locateError span (Γ.bindFree x ty)) := by
  refine Yields.locateError span ?_
  rw [Context.bindFree]
  split
  · exact True.intro
  · rename_i hx
    exact ⟨hx, rfl⟩

theorem bind_extends (site : Surface.Site) (ty : Value) :
    Yields (fun p => p.1 ∉ S.context.names ∧ p.2.context = S.context.extendFree p.1 ty)
      (S.bind site ty) :=
  (Yields.lift _).bind fun x _ => (bindFree_extends S.context site.span x ty).bind fun _ h =>
    .of_ok h

theorem bindHidden_extends (x : String) (ty : Value) (span : Span) :
    Yields (fun S' => x ∉ S.context.names ∧ S'.context = S.context.extendFree x ty)
      (S.bindHidden x ty span) :=
  (bindFree_extends S.context span x ty).bind fun _ h => .of_ok h

/-- A name of the program means a name in scope that has the type found. -/
theorem reference_yields (span : Span) (x : String) :
    Yields (fun p => S.context.lookupType p.1 = .ok p.2) (locateError span (S.reference x)) :=
  Yields.locateError span ((Yields.result _).bind fun _ _ => (Yields.result _).bind fun _ hty =>
    .of_ok hty)

end Scope

/-- The term stands for an element of a type that the value represents. -/
def Core.Found (W Θ : Instance) (p : Core × Value) : Prop :=
  ∃ (C : Code) (w : Value), C.RepresentsType W p.2 ∧ Derives Θ p.1 (.element w C)

/-- The term stands for an element of the type. -/
def Core.Inhabits (Θ : Instance) (C : Code) (t : Core) : Prop := ∃ w, Derives Θ t (.element w C)

/-- The term stands for a type, and for a small one if the universe must contain it. -/
def Component.Reads (c : Component) (Θ : Instance) (t : Core) : Prop :=
  ∃ C : Code, Derives Θ t (.type C) ∧ (c = .ofUniverse → C.Small)

/-- The family of a type former is small everywhere if it is so at the elements of the base. -/
theorem Component.Reads.quant {c : Component} {Θ : Instance} {q : Quantifier} {x : String}
    {base family : Core} {A : Code} (hbase : Derives Θ base (.type A))
    (hsmall : c = .ofUniverse → A.Small)
    (hfamily : ∀ a, A.Relates a a → c.Reads ((x, A, a) :: Θ) family) :
    c.Reads Θ (.quant q x base family) := by
  have h : ∀ a, ∃ C : Code, (A.Relates a a → Derives ((x, A, a) :: Θ) family (.type C)) ∧
      (c = .ofUniverse → C.Small) := by
    intro a
    by_cases ha : A.Relates a a
    · obtain ⟨C, hC, hs⟩ := hfamily a ha
      exact ⟨C, fun _ => hC, hs⟩
    · exact ⟨.nat, fun h => (ha h).elim, fun _ => True.intro⟩
  obtain ⟨F, hF⟩ := Classical.skolem.1 h
  exact ⟨.quant q A F, hbase.quant q fun a ha => (hF a).1 ha, fun hc =>
    ⟨hsmall hc, fun a => (hF a).2 hc⟩⟩

namespace Rules

/-- What the readings of an expression return has a meaning in every instance of the scope. -/
structure Sound (r : Rules) : Prop where
  synthesize : ∀ {S : Scope} {W Θ : Instance}, S.context.Models W Θ →
    Yields (Core.Found W Θ) (r.synthesize S)
  check : ∀ {S : Scope} {W Θ : Instance} {C : Code} {ty : Value}, S.context.Models W Θ →
    C.Denoted → C.RepresentsType W ty → Yields (Core.Inhabits Θ C) (r.check S ty)
  isType : ∀ {S : Scope} {W Θ : Instance}, S.context.Models W Θ →
    Yields (fun t => ∃ C, Derives Θ t (.type C)) (r.isType S)

variable {E : Engine} {span : Span} {S : Scope} {W Θ : Instance} {C : Code} {ty : Value}

theorem Sound.component {a : Part} (ha : a.rules.Sound) (hΓ : S.context.Models W Θ)
    (c : Component) :
    Yields (c.Reads Θ) (a.component c S) := by
  cases c with
  | type => exact (ha.isType hΓ).mono fun t ⟨C, hC⟩ => ⟨C, hC, nofun⟩
  | ofUniverse =>
    refine (ha.check hΓ Code.denoted_univ (Code.representsType_const rfl)).mono
      fun t ⟨w, hw⟩ => ?_
    obtain ⟨C, hsmall, hC⟩ := hw.exists_small hΓ.valid
    exact ⟨C, hC, fun _ => hsmall⟩

/-! ## The four patterns -/

/-- Elements of the universe are types. -/
theorem asType_sound {check : Scope → Value → Checked Core} (hΓ : S.context.Models W Θ)
    (h : Yields (Core.Inhabits Θ .univ) (check S .univ)) :
    Yields (fun t => ∃ C, Derives Θ t (.type C)) (asType span check S) :=
  (asType_yields h).mono fun _ ⟨_, hw⟩ => (hw.exists_small hΓ.valid).imp fun _ hC => hC.2

theorem checkFound_sound {find : Scope → Checked (Core × Value)} (hΓ : S.context.Models W Θ)
    (h : Yields (Core.Found W Θ) (find S)) (hC : C.Denoted) (hty : C.RepresentsType W ty) :
    Yields (Core.Inhabits Θ C) (checkFound E span find S ty) := by
  refine (Yields.lift _).bind fun T hT => h.bind fun ⟨t, found⟩ ⟨C', w, hfound, ht⟩ => ?_
  have hsame := hΓ.sameType (E := E) hC (ht.denoted hΓ.valid) (hty.forced hT) hfound
  exact (hsame.locate span).bind fun _ hagree => .of_ok ⟨w, ht.conv hagree.symm⟩

theorem inferred_sound {find : Scope → Checked (Core × Value)}
    (h : ∀ {S : Scope} {W Θ : Instance}, S.context.Models W Θ →
      Yields (Core.Found W Θ) (find S)) :
    (inferred E span find).Sound where
  synthesize := h
  check hΓ hC hty := checkFound_sound hΓ (h hΓ) hC hty
  isType hΓ := asType_sound hΓ (checkFound_sound hΓ (h hΓ) Code.denoted_univ
    (Code.representsType_const rfl))

theorem former_sound {build : Component → Scope → Checked Core}
    (h : ∀ {S : Scope} {W Θ : Instance} (c : Component), S.context.Models W Θ →
      Yields (c.Reads Θ) (build c S)) :
    (former E span build).Sound := by
  have hfind : ∀ {S : Scope} {W Θ : Instance}, S.context.Models W Θ →
      Yields (Core.Found W Θ) ((former E span build).synthesize S) := by
    intro S W Θ hΓ
    refine (h .ofUniverse hΓ).bind fun t ⟨C, hC, hsmall⟩ => ?_
    obtain ⟨T, hT⟩ := hC.type_denoted hΓ.valid
    exact .of_ok ⟨.univ, T, Code.representsType_const rfl, hC.small (hsmall rfl) hT⟩
  exact ⟨hfind, fun hΓ hC hty => checkFound_sound hΓ (hfind hΓ) hC hty,
    fun hΓ => (h .type hΓ).mono fun _ ⟨C, hC, _⟩ => ⟨C, hC⟩⟩

theorem checked_sound {check : Scope → Value → Checked Core}
    (h : ∀ {S : Scope} {W Θ : Instance} {C : Code} {ty : Value}, S.context.Models W Θ →
      C.Denoted → C.RepresentsType W ty → Yields (Core.Inhabits Θ C) (check S ty)) :
      (checked span check).Sound := by
  have hcheck : ∀ {S : Scope} {W Θ : Instance} {C : Code} {ty : Value}, S.context.Models W Θ →
      C.Denoted →
      C.RepresentsType W ty → Yields (Core.Inhabits Θ C) ((checked span check).check S ty) :=
    fun hΓ hC hty => (Yields.lift _).bind fun _ hT => h hΓ hC (hty.forced hT)
  exact ⟨fun _ => True.intro, hcheck,
    fun hΓ => asType_sound hΓ (hcheck hΓ Code.denoted_univ (Code.representsType_const rfl))⟩

theorem univ_sound : (univ E span).Sound := by
  have hfind : ∀ {S : Scope} {W Θ : Instance},
      Yields (Core.Found W Θ) ((univ E span).synthesize S) := True.intro
  exact ⟨fun _ => hfind, fun hΓ hC hty => checkFound_sound hΓ hfind hC hty, fun _ =>
    ⟨.univ, .const rfl⟩⟩

/-! ## Parts with a type of a given form -/

section Parts

variable {a : Part} (ha : a.rules.Sound) (hΓ : S.context.Models W Θ)

include ha hΓ

theorem findFormer_sound {α : Type} (former : Former) (parts? : Value → Option α) :
    Yields (fun p => ∃ C ty w, C.RepresentsType W ty ∧ parts? ty = some p.2 ∧
      Derives Θ p.1 (.element w C)) (findFormer E a former parts? S) := by
  refine (ha.synthesize hΓ).bind fun ⟨t, ty⟩ ⟨C, w, hty, ht⟩ =>
    (Yields.lift _).bind fun T hT => ?_
  split
  · rename_i parts hparts
    exact .of_ok ⟨C, T, w, hty.forced hT, hparts, ht⟩
  · exact S.rejectFormer_yields E a.span former T

theorem findList_sound :
    Yields (fun p => ∃ A w, A.RepresentsType W p.2 ∧ Derives Θ p.1 (.element w (.list A)))
      (findList E a S) := by
  refine (findFormer_sound ha hΓ .list _).mono fun ⟨t, entry⟩ ⟨C, ty, w, hty, hparts, ht⟩ => ?_
  split at hparts <;> cases hparts
  obtain ⟨A, rfl, hA⟩ := hty.of_list rfl
  exact ⟨A, w, hA, ht⟩

theorem findEqual_sound :
    Yields (fun p => ∃ A l r w, A.RepresentsType W p.2.1 ∧ A.Represents W p.2.2.1 l ∧
      A.Represents W p.2.2.2 r ∧
      Derives Θ p.1 (.element w (.equal A l r))) (findEqual E a S) := by
  refine (findFormer_sound ha hΓ .equal _).mono
    fun ⟨t, space, lhs, rhs⟩ ⟨C, ty, w, hty, hparts, ht⟩ => ?_
  split at hparts <;> cases hparts
  obtain ⟨A, l, r, rfl, hA, hl, hr⟩ := hty.of_equal rfl
  exact ⟨A, l, r, w, hA, hl, hr, ht⟩

theorem findVec_sound :
    Yields (fun p => ∃ A n w, A.RepresentsType W p.2.1 ∧ Code.nat.Represents W p.2.2 n ∧
      Derives Θ p.1 (.element w (.vec A n))) (findVec E a S) := by
  refine (findFormer_sound ha hΓ .vec _).mono
    fun ⟨t, entry, length⟩ ⟨C, ty, w, hty, hparts, ht⟩ => ?_
  split at hparts <;> cases hparts
  obtain ⟨A, n, rfl, hA, hn⟩ := hty.of_vec rfl
  exact ⟨A, n, w, hA, hn, ht⟩

theorem findEither_sound :
    Yields (fun p => ∃ A B w, A.RepresentsType W p.2.1 ∧ B.RepresentsType W p.2.2 ∧
      Derives Θ p.1 (.element w (.either A B))) (findFormer E a .either (fun
        | .either left right => some (left, right)
        | _ => none) S) := by
  refine (findFormer_sound ha hΓ .either _).mono
    fun ⟨t, left, right⟩ ⟨C, ty, w, hty, hparts, ht⟩ => ?_
  split at hparts <;> cases hparts
  obtain ⟨A, B, rfl, hA, hB⟩ := hty.of_either rfl
  exact ⟨A, B, w, hA, hB, ht⟩

theorem findQuant_sound (former : Former) (q : Quantifier) :
    Yields (fun p => ∃ A F w, A.RepresentsType W p.2.1 ∧
      (∀ W' a c, W.Sub W' → A.Represents W' a c → ∀ strategy fuel r,
        p.2.2.run strategy fuel a = .ok r → (F c).RepresentsType W' r) ∧
      Derives Θ p.1 (.element w (.quant q A F))) (findQuant E a former q S) := by
  refine (findFormer_sound ha hΓ former _).mono
    fun ⟨t, base, family⟩ ⟨C, ty, w, hty, hparts, ht⟩ => ?_
  split at hparts
  · split at hparts <;> cases hparts
    rename_i hq
    subst hq
    obtain ⟨A, F, rfl, hA, hF⟩ := hty.of_quant rfl
    exact ⟨A, F, w, hA, hF, ht⟩
  · cases hparts

theorem findNonempty_sound :
    Yields (fun p => ∃ A n b bs, A.RepresentsType W p.2.1 ∧ Code.nat.Represents W p.2.2 n ∧
      Derives Θ p.1 (.element (.vecCons b bs) (.vec A (.add1 n)))) (findNonempty E a S) := by
  refine (findVec_sound ha hΓ).bind fun ⟨t, entry, length⟩ ⟨A, n, w, hA, hn, ht⟩ =>
    (Yields.lift _).bind fun l hl => ?_
  split
  · rename_i previous
    obtain ⟨n, rfl, hprevious⟩ := Code.Represents.of_add1 hn hl
    obtain ⟨b, bs, rfl⟩ := Code.exists_vecCons (ht.relates hΓ.valid)
    exact .of_ok ⟨A, n, b, bs, hA, hprevious, ht⟩
  · exact S.rejectLength_yields E a.span .successor _

theorem checkMotive_sound (hC : C.Denoted) (hty : C.RepresentsType W ty) :
    Yields (fun p => ∃ w, Derives Θ p.1 (.element w C) ∧ C.Represents W p.2 w)
      (checkMotive E a S ty) := by
  have h := ha.check hΓ hC hty
  rw [checkMotive]
  split
  · rename_i heq
    obtain ⟨w, hw⟩ := h.of_eq_ok heq
    exact (Yields.lift _).bind fun v hv => .of_ok ⟨w, hw, hΓ.evaluate hw hv⟩
  · split
    · exact (Yields.lift _).bind fun _ _ => True.intro
    · exact (Yields.lift _).bind fun _ _ => True.intro
    · exact (Yields.lift _).bind fun _ _ => True.intro
    · exact True.intro
  · exact True.intro

end Parts

/-! ## Binders -/

theorem nondependent_sound (q : Quantifier) (c : Component) {domain : Part}
    (hd : domain.rules.Sound) {rest : List Part} (hrest : ∀ a ∈ rest, a.rules.Sound)
    (hΓ : S.context.Models W Θ) :
    Yields (c.Reads Θ) (nondependent E q c domain rest S) := by
  induction rest generalizing domain S W Θ with
  | nil => exact hd.component hΓ c
  | cons codomain rest ih =>
    refine (Yields.lift _).bind fun x _ => (hd.component hΓ c).bind
      fun base ⟨A, hbase, hsmall⟩ => ?_
    refine (Yields.lift _).bind fun v hv => (S.bindHidden_extends x v domain.span).bind
      fun inner ⟨hx, hinner⟩ => ?_
    have hrepresented : A.RepresentsType W v := hΓ.evaluate hbase hv
    have hfamily := Yields.all fun a => Yields.all fun ha : A.Relates a a =>
      ih (hrest codomain List.mem_cons_self) (fun b hb => hrest b (List.mem_cons_of_mem _ hb))
        (hinner ▸ hΓ.extendFree hx (hbase.type_denoted hΓ.valid) hrepresented ha)
    exact hfamily.bind fun family hf => .of_ok (.quant hbase hsmall hf)

theorem telescope_sound (q : Quantifier) (c : Component) {body : Part}
    (hbody : body.rules.Sound) {binders : List (Surface.Site × Part)}
    (hbinders : ∀ b ∈ binders, b.2.rules.Sound) (hΓ : S.context.Models W Θ) :
    Yields (c.Reads Θ) (telescope E q c body binders S) := by
  induction binders generalizing S W Θ with
  | nil => exact hbody.component hΓ c
  | cons binder binders ih =>
    obtain ⟨site, ty⟩ := binder
    have hty : ty.rules.Sound := hbinders (site, ty) List.mem_cons_self
    refine (hty.component hΓ c).bind fun base ⟨A, hbase, hsmall⟩ =>
      (Yields.lift _).bind fun v hv => ?_
    refine (S.bind_extends site v).bind fun ⟨x, inner⟩ ⟨hx, hinner⟩ => ?_
    have hrepresented : A.RepresentsType W v := hΓ.evaluate hbase hv
    have hfamily := Yields.all fun a => Yields.all fun ha : A.Relates a a =>
      ih (fun b hb => hbinders b (List.mem_cons_of_mem _ hb))
        (hinner ▸ hΓ.extendFree hx (hbase.type_denoted hΓ.valid) hrepresented ha)
    exact hfamily.bind fun family hf => .of_ok (.quant hbase hsmall hf)

theorem checkLambda_sound {body : Part} (hbody : body.rules.Sound) (sites : List Surface.Site)
    (hΓ : S.context.Models W Θ) (hC : C.Denoted) (hty : C.RepresentsType W ty) :
    Yields (Core.Inhabits Θ C) (checkLambda E span body sites S ty) := by
  induction sites generalizing S W Θ C ty with
  | nil => exact hbody.check hΓ hC hty
  | cons site sites ih =>
    unfold checkLambda
    split
    · rename_i y base family
      obtain ⟨A, F, rfl, hbase, hF⟩ := hty.of_quant rfl
      refine (S.bind_extends site base).bind fun ⟨x, inner⟩ ⟨hx, hinner⟩ => ?_
      refine (Yields.lift _).bind fun r hr => (Yields.lift _).bind fun codomain hcodomain => ?_
      have hlam := Yields.all fun a => Yields.all fun ha : A.Relates a a => by
        have hfresh := (hΓ.sub.namedIn hΓ.named).lookup_eq_none hx
        have hvar := Code.represents_var A.adequate hC.base hbase ha hfresh
        have hr : (F a).RepresentsType ((x, A, a) :: W) r :=
          hF _ _ _ (Instance.sub_cons hfresh) hvar _ _ _ hr
        exact ih (hinner ▸ hΓ.extendFree hx hC.base hbase ha) (hC.family ha).left
          (hr.forced hcodomain)
      exact hlam.bind fun t ht => .of_ok (Derives.exists_lam hΓ.valid hC ht)
    · exact S.rejectFormer_yields E span .pi _

theorem applyTo_sound {arguments : List Part} (harguments : ∀ a ∈ arguments, a.rules.Sound)
    (hΓ : S.context.Models W Θ) {function : Core} (hf : Core.Found W Θ (function, ty)) :
    Yields (Core.Found W Θ) (applyTo E span arguments S function ty) := by
  induction arguments generalizing function ty with
  | nil => exact hf
  | cons argument arguments ih =>
    obtain ⟨C, w, hty, hw⟩ := hf
    refine (Yields.lift _).bind fun T hT => ?_
    split
    · rename_i y base family
      obtain ⟨A, F, rfl, hbase, hF⟩ := hty.of_quant hT
      have hC := hw.denoted hΓ.valid
      refine ((harguments argument List.mem_cons_self).check hΓ hC.base hbase).bind
        fun a ⟨c, ha⟩ => ?_
      refine (Yields.lift _).bind fun v hv => (Yields.lift _).bind fun result hresult => ?_
      obtain ⟨r, -, hr, -, -⟩ := hw.relates hΓ.valid c c (ha.relates hΓ.valid)
      exact ih (fun b hb => harguments b (List.mem_cons_of_mem _ hb))
        ⟨F c, r, hF _ _ _ (.refl W) (hΓ.evaluate ha hv) _ _ _ hresult, hw.apply ha hr⟩
    · exact S.rejectFormer_yields E span .pi _

end Rules

end PieChecker
