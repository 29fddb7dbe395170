import PieChecker.Proofs.EvaluatedValues
import PieChecker.Proofs.Parsing.Rereading
import PieChecker.Proofs.Postcondition
import PieChecker.Proofs.Printing.RoundTrip
import PieChecker.Session

set_option autoImplicit false

/-!
# Terms whose text does not say their types

A printed term is accepted again only if its text says enough. The checker finds the types of
some parts of an expression, such as the target of an eliminator, before it looks at the others.
A part of that kind must not be *bare*, that is of a form which fits a type but does not say
which one: a `λ`, a pair, an injection, an empty list, a `same`. Read-back puts bare terms into
such places. It does so in a `trans` with one side that is stuck and one that is not, in a stuck
`cong`, whose function is a `λ`, and in a list whose entries are functions or pairs.
-/

namespace PieChecker

namespace Core

/-- Does the term fit types of some kind without saying which type it has? -/
def isBare : Core → Bool
  | const .nil | const .vecnil | lam _ _ | unary .same _ | unary .left _ | unary .right _
  | binary .cons _ _
  | binary .vecCons _ _ => true
  | _ => false

/-- The parts of a term whose types are found from the parts themselves. -/
def sought : Core → List Core
  | unary .car a | unary .cdr a | unary .symm a | unary .head a | unary .tail a => [a]
  | binary .apply f _ => [f]
  | binary .listCons a _ => [a]
  | binary .trans a b => [a, b]
  | ternary .cong a _ f => [a, f]
  | ternary .replace a _ _ | ternary .indEq a _ _ => [a]
  | quaternary .recList a _ _ _ | quaternary .indList a _ _ _ | quaternary .indEither a _ _ _ =>
    [a]
  | indVec _ a _ _ _ => [a]
  | _ => []

/-- No part whose type is to be found is bare. -/
def SaysTypes (t : Core) : Prop := ∀ a ∈ t.sought, a.isBare = false

/-- Every part of the term says what its type is, if that is to be found. -/
abbrev IsTelling (t : Core) : Prop := t.Everywhere SaysTypes

section SaysTypes

variable {t a b : Core}

theorem saysTypes_nil (h : t.sought = []) : t.SaysTypes := by simp [SaysTypes, h]

theorem saysTypes_one (h : t.sought = [a]) (ha : a.isBare = false) : t.SaysTypes := by
  simp [SaysTypes, h, ha]

theorem saysTypes_two (h : t.sought = [a, b]) (ha : a.isBare = false) (hb : b.isBare = false) :
    t.SaysTypes := by
  simp [SaysTypes, h, ha, hb]

end SaysTypes

theorem isTelling_numeral (n : Nat) : (numeral n).IsTelling := by
  induction n with
  | zero => exact saysTypes_nil rfl
  | succ n ih => exact ⟨saysTypes_nil rfl, ih⟩

end Core

/-! ## Rules -/

/-- What has to hold of an expression before one of its readings accepts it. Its type can be
found, and it can be a type of the universe, only if it is not bare. -/
structure Rules.Requires (bare : Bool) (fine : Prop) (r : Rules) : Prop where
  synthesize : ∀ S, Yields (fun _ => bare = false ∧ fine) (r.synthesize S)
  small : ∀ S, Yields (fun _ => bare = false) (r.check S .univ)
  check : ∀ S ty, Yields (fun _ => fine) (r.check S ty)
  isType : ∀ S, Yields (fun _ => fine) (r.isType S)

/-- The readings of an expression for the term accept it only if its text says enough. -/
abbrev Rules.Demand (t : Core) (r : Rules) : Prop := r.Requires t.isBare t.IsTelling

namespace Rules

section Patterns

variable {E : Engine} {span : Span} {bare : Bool} {fine : Prop}

theorem Requires.component {a : Part} (ha : a.rules.Requires bare fine) (c : Component)
    (S : Scope) :
    Yields (fun _ => fine) (a.component c S) := by
  cases c with
  | type => exact ha.isType S
  | ofUniverse => exact ha.check S .univ

theorem Requires.findFormer {α : Type} {a : Part} (ha : a.rules.Requires bare fine)
    (former : Former) (parts? : Value → Option α) (S : Scope) :
    Yields (fun _ => bare = false ∧ fine) (Rules.findFormer E a former parts? S) :=
  @findFormer_yields (fun _ => bare = false ∧ fine) E S a α (ha.synthesize S) former parts?

theorem Requires.findNonempty {a : Part} (ha : a.rules.Requires bare fine) (S : Scope) :
    Yields (fun _ => bare = false ∧ fine) (Rules.findNonempty E a S) :=
  @findNonempty_yields (fun _ => bare = false ∧ fine) E S a (ha.synthesize S)

theorem inferred_requires {find : Scope → Checked (Core × Value)}
    (h : ∀ S, Yields (fun _ => bare = false ∧ fine) (find S)) :
    (inferred E span find).Requires bare fine := by
  have hcheck : ∀ S ty, Yields (fun _ => bare = false ∧ fine) (checkFound E span find S ty) :=
    fun S ty => checkFound_yields (h S) ty
  exact ⟨h, fun S => (hcheck S .univ).mono fun _ hp => hp.1, fun S ty =>
    (hcheck S ty).mono fun _ hp => hp.2,
    fun S => asType_yields ((hcheck S .univ).mono fun _ hp => hp.2)⟩

theorem former_requires {build : Component → Scope → Checked Core}
    (hsmall : ∀ S, Yields (fun _ => bare = false) (build .ofUniverse S))
    (h : ∀ c S, Yields (fun _ => fine) (build c S)) :
    (former E span build).Requires bare fine := by
  have hfind : ∀ S, Yields (fun _ => bare = false ∧ fine)
      ((former E span build).synthesize S) := by
    intro S
    refine (Yields.result (build .ofUniverse S)).bind fun t ht => .of_ok ?_
    exact ⟨(hsmall S).of_eq_ok ht, (h .ofUniverse S).of_eq_ok ht⟩
  have hcheck : ∀ S ty, Yields (fun _ => bare = false ∧ fine)
      (checkFound E span (former E span build).synthesize S ty) :=
    fun S => checkFound_yields (hfind S)
  exact ⟨hfind, fun S => (hcheck S .univ).mono fun _ hp => hp.1, fun S ty =>
    (hcheck S ty).mono fun _ hp => hp.2, h .type⟩

theorem checked_requires {check : Scope → Value → Checked Core}
    (hsmall : ∀ S, Yields (fun _ => bare = false) (check S .univ))
    (h : ∀ S ty, Yields (fun _ => fine) (check S ty)) :
    (checked span check).Requires bare fine := by
  have hcheck : ∀ S ty, Yields (fun _ => fine) ((checked span check).check S ty) :=
    fun S _ => .skip fun T => h S T
  exact ⟨fun _ => True.intro, hsmall, hcheck, fun S => asType_yields (hcheck S .univ)⟩

/-- Nothing is required of an expression that is not bare and tells everything. -/
theorem requires_of_telling (r : Rules) (hbare : bare = false) (h : fine) :
    r.Requires bare fine where
  synthesize _ := .of_forall fun _ _ => ⟨hbare, h⟩
  small _ := .of_forall fun _ _ => hbare
  check _ _ := .of_forall fun _ _ => h
  isType _ := .of_forall fun _ _ => h

/-! ### Binders -/

theorem nondependent_requires (q : Quantifier) (c : Component) {domain : Part} {t : Core}
    (hd : domain.rules.Demand t) {rest : List Part} {ts : List Core}
    (hrest : List.Forall₂ (fun a u => a.rules.Demand u) rest ts) (S : Scope) :
    Yields (fun _ => t.IsTelling ∧ ∀ u ∈ ts, u.IsTelling)
      (nondependent E q c domain rest S) := by
  induction hrest generalizing domain t S with
  | nil => exact (hd.component c S).mono fun _ ht => ⟨ht, List.forall_mem_nil _⟩
  | cons hcodomain _ ih =>
    refine .skip fun x => (hd.component c S).bind fun _ ht => .skip fun v =>
      .skip fun inner => ?_
    exact (ih hcodomain inner).bind fun _ hts => .of_ok ⟨ht, List.forall_mem_cons.2 hts⟩

theorem telescope_requires (q : Quantifier) (c : Component) {body : Part} {t : Core}
    (hbody : body.rules.Demand t) {binders : List (Surface.Site × Part)}
    {bs : List (String × Core)}
    (hbinders : List.Forall₂ (fun b u => b.2.rules.Demand u.2) binders bs) (S : Scope) :
    Yields (fun _ => (∀ b ∈ bs, b.2.IsTelling) ∧ t.IsTelling)
      (telescope E q c body binders S) := by
  induction hbinders generalizing S with
  | nil => exact (hbody.component c S).mono fun _ ht => ⟨List.forall_mem_nil _, ht⟩
  | cons hty _ ih =>
    refine (hty.component c S).bind fun _ hbase => .skip fun v => .skip fun r => ?_
    exact (ih r.2).bind fun _ hrest => .of_ok ⟨List.forall_mem_cons.2 ⟨hbase, hrest.1⟩, hrest.2⟩

theorem checkLambda_requires {body : Part} (hbody : body.rules.Requires bare fine)
    (sites : List Surface.Site) (S : Scope) (ty : Value) :
    Yields (fun _ => fine) (checkLambda E span body sites S ty) := by
  induction sites generalizing S ty with
  | nil => exact hbody.check S ty
  | cons site sites ih =>
    unfold checkLambda
    split
    · exact .skip fun r => .skip fun _ => .skip fun codomain => (ih r.2 codomain).bind
        fun _ ht => .of_ok ht
    · exact S.rejectFormer_yields E span .pi _

theorem applyTo_requires {arguments : List Part} {ts : List Core}
    (harguments : List.Forall₂ (fun a u => a.rules.Demand u) arguments ts) (S : Scope)
    (function : Core) (ty : Value) :
    Yields (fun _ => ∀ u ∈ ts, u.IsTelling) (applyTo E span arguments S function ty) := by
  induction harguments generalizing function ty with
  | nil => exact List.forall_mem_nil _
  | cons hargument _ ih =>
    refine .skip fun T => ?_
    split
    · rename_i base family
      refine (hargument.check S base).bind fun a ha => .skip fun v => .skip fun result => ?_
      exact (ih (.apply function a) result).mono fun _ hts => List.forall_mem_cons.2 ⟨ha, hts⟩
    · exact S.rejectFormer_yields E span .pi _

end Patterns

/-! ### Rules by the number of parts -/

section Operators

variable {E : Engine} {span : Span} {a b c d e : Part} {ta tb tc td te : Core}

theorem const_demand (k : Const) : (const E span k).Demand (.const k) := by
  have fine : (Core.const k).IsTelling := by cases k <;> exact Core.saysTypes_nil rfl
  cases k with
  | nil =>
    exact checked_requires (fun S => S.rejectFormer_yields E span .list _) fun _ _ =>
      .of_forall fun _ _ => fine
  | vecnil =>
    exact checked_requires (fun S => S.rejectFormer_yields E span .vec _) fun _ _ =>
      .of_forall fun _ _ => fine
  | univ | nat | atom | trivial | absurd | zero | sole => exact requires_of_telling _ rfl fine

theorem unary_demand (o : Unary) (ha : a.rules.Demand ta) :
    (unary E span o a).Demand (.unary o ta) := by
  have telling {o : Unary} (hsought : (Core.unary o ta).sought = []) (ht : ta.IsTelling) :
      (Core.unary o ta).IsTelling :=
    ⟨Core.saysTypes_nil hsought, ht⟩
  have found {o : Unary} (hsought : (Core.unary o ta).sought = [ta])
      (h : ta.isBare = false ∧ ta.IsTelling) :
      (Core.unary o ta).IsTelling :=
    ⟨Core.saysTypes_one hsought h.1, h.2⟩
  cases o with
  | add1 =>
    exact inferred_requires fun S => (ha.check S .nat).bind fun _ ht =>
      .of_ok ⟨rfl, telling rfl ht⟩
  | car =>
    refine inferred_requires fun S => (ha.findFormer .sigma _ S).bind fun _ ht => ?_
    exact .of_ok ⟨rfl, found rfl ht⟩
  | cdr =>
    refine inferred_requires fun S => (ha.findFormer .sigma _ S).bind fun _ ht => ?_
    exact .skip fun _ => .skip fun _ => .skip fun _ => .of_ok ⟨rfl, found rfl ht⟩
  | list =>
    rw [unary]
    refine former_requires (fun _ => .of_forall fun _ _ => rfl) fun c S => ?_
    exact (ha.component c S).bind fun _ ht => .of_ok (telling rfl ht)
  | same =>
    refine checked_requires (fun S => S.rejectFormer_yields E span .equal _) fun S ty => ?_
    split
    · refine (ha.check S _).bind fun _ ht => ?_
      exact .skip fun _ => .skip fun _ => .skip fun _ => .of_ok (telling rfl ht)
    · exact S.rejectFormer_yields E span .equal _
  | symm =>
    refine inferred_requires fun S => (ha.findFormer .equal _ S).bind fun _ ht => ?_
    exact .of_ok ⟨rfl, found rfl ht⟩
  | head | tail =>
    refine inferred_requires fun S => (ha.findNonempty S).bind fun _ ht => ?_
    exact .of_ok ⟨rfl, found rfl ht⟩
  | left | right =>
    refine checked_requires (fun S => S.rejectFormer_yields E span .either _) fun S ty => ?_
    split
    · exact (ha.check S _).bind fun _ ht => .of_ok (telling rfl ht)
    · exact S.rejectFormer_yields E span .either _

theorem binary_demand (o : Surface.Binary) (ha : a.rules.Demand ta) (hb : b.rules.Demand tb) :
    (binary E span o a b).Demand (o.expand ta tb) := by
  have telling {o : Core.Binary} (hsought : (Core.binary o ta tb).sought = [])
      (ht : ta.IsTelling) (hu : tb.IsTelling) :
      (Core.binary o ta tb).IsTelling :=
    ⟨Core.saysTypes_nil hsought, ht, hu⟩
  cases o with
  | the =>
    refine inferred_requires fun S => (ha.isType S).bind fun _ ht => .skip fun v => ?_
    exact (hb.check S v).bind fun _ hu => .of_ok ⟨rfl, telling rfl ht hu⟩
  | pair =>
    rw [binary]
    refine former_requires (fun _ => .of_forall fun _ _ => rfl) fun c S => ?_
    refine (nondependent_requires .sigma c ha (.cons hb .nil) S).mono fun _ h => ?_
    exact ⟨Core.saysTypes_nil rfl, h.1, List.forall_mem_singleton.1 h.2⟩
  | cons =>
    refine checked_requires (fun S => S.rejectFormer_yields E span .sigma _) fun S ty => ?_
    split
    · refine (ha.check S _).bind fun _ ht => .skip fun _ => .skip fun T => ?_
      exact (hb.check S T).bind fun _ hu => .of_ok (telling rfl ht hu)
    · exact S.rejectFormer_yields E span .sigma _
  | listCons =>
    refine inferred_requires fun S => (ha.synthesize S).bind fun t ht => ?_
    refine (hb.check S (.list t.2)).bind fun _ hu => .of_ok ⟨rfl, ?_⟩
    exact ⟨Core.saysTypes_one rfl ht.1, ht.2, hu⟩
  | indAbsurd =>
    refine inferred_requires fun S => (ha.check S _).bind fun _ ht =>
      (hb.isType S).bind fun _ hu => ?_
    exact .skip fun _ => .of_ok ⟨rfl, telling rfl ht hu⟩
  | trans =>
    refine inferred_requires fun S => (ha.findFormer .equal _ S).bind fun _ ht => ?_
    refine (hb.findFormer .equal _ S).bind fun _ hu => .skip fun _ => .skip fun _ => .of_ok ?_
    exact ⟨rfl, Core.saysTypes_two rfl ht.1 hu.1, ht.2, hu.2⟩
  | cong =>
    refine inferred_requires fun S => (ha.findFormer .equal _ S).bind fun _ ht => ?_
    refine (hb.findFormer .pi _ S).bind fun _ hu => ?_
    refine .skip fun _ => .skip fun _ => .skip fun _ => .skip fun _ => .skip fun _ =>
      .skip fun _ => .of_ok ?_
    exact ⟨rfl, Core.saysTypes_two rfl ht.1 hu.1, ht.2, Core.saysTypes_nil rfl, hu.2⟩
  | vec =>
    rw [binary]
    refine former_requires (fun _ => .of_forall fun _ _ => rfl) fun c S =>
      (ha.component c S).bind fun _ ht => ?_
    exact (hb.check S .nat).bind fun _ hu => .of_ok (telling rfl ht hu)
  | vecCons =>
    refine checked_requires (fun S => S.rejectFormer_yields E span .vec _) fun S ty => ?_
    split
    · refine .skip fun length => ?_
      split
      · exact (ha.check S _).bind fun _ ht => (hb.check S _).bind fun _ hu =>
          .of_ok (telling rfl ht hu)
      · exact S.rejectLength_yields E span .successor _
    · exact S.rejectFormer_yields E span .vec _
  | either =>
    rw [binary]
    refine former_requires (fun _ => .of_forall fun _ _ => rfl) fun c S =>
      (ha.component c S).bind fun _ ht => ?_
    exact (hb.component c S).bind fun _ hu => .of_ok (telling rfl ht hu)

/-- The type of the base stands in its annotation. -/
theorem natRecursor_demand (o : Core.Quaternary) (stepType : Value → Value)
    (ho : ∀ t p b s, (Core.quaternary o t p b s).sought = []) {p q : Core}
    (ha : a.rules.Demand ta) (hb : b.rules.Demand (.the p q)) (hc : c.rules.Demand tc) :
    (natRecursor E span o stepType a b c).Demand (.quaternary o ta p q tc) := by
  refine inferred_requires fun S => (ha.check S .nat).bind fun _ ht => ?_
  refine (hb.synthesize S).bind fun b hb => (hc.check S (stepType b.2)).bind fun _ hs =>
    .skip fun _ => .of_ok ?_
  exact ⟨rfl, Core.saysTypes_nil (ho _ _ _ _), ht, hb.2.2.1, hb.2.2.2, hs⟩

theorem ternary_demand (o : Surface.Ternary) {t : Core} (h : o.expand ta tb tc = some t)
    (ha : a.rules.Demand ta) (hb : b.rules.Demand tb) (hc : c.rules.Demand tc) :
    (ternary E span o a b c).Demand t := by
  cases o with
  | whichNat | iterNat | recNat =>
    match tb, h with
    | .binary .the p q, rfl => exact natRecursor_demand _ _ (fun _ _ _ _ => rfl) ha hb hc
  | recList =>
    match tb, h with
    | .binary .the p q, rfl =>
      refine inferred_requires fun S => (ha.findFormer .list _ S).bind fun _ ht => ?_
      refine (hb.synthesize S).bind fun b hb => (hc.check S _).bind fun _ hs =>
        .skip fun _ => .of_ok ?_
      exact ⟨rfl, Core.saysTypes_one rfl ht.1, ht.2, hb.2.2.1, hb.2.2.2, hs⟩
  | equal =>
    cases h
    rw [ternary]
    refine former_requires (fun _ => .of_forall fun _ _ => rfl) fun k S => ?_
    refine (ha.component k S).bind fun _ ht => .skip fun v => (hb.check S v).bind fun _ hl => ?_
    exact (hc.check S v).bind fun _ hr => .of_ok ⟨Core.saysTypes_nil rfl, ht, hl, hr⟩
  | replace =>
    cases h
    refine inferred_requires fun S => (ha.findFormer .equal _ S).bind fun _ ht => ?_
    refine (checkMotive_yields (hb.check S _)).bind fun _ hp => .skip fun T =>
      (hc.check S T).bind fun _ hs => ?_
    exact .skip fun _ => .of_ok ⟨rfl, Core.saysTypes_one rfl ht.1, ht.2, hp, hs⟩
  | indEq =>
    cases h
    refine inferred_requires fun S => (ha.findFormer .equal _ S).bind fun _ ht => ?_
    refine (checkMotive_yields (hb.check S _)).bind fun _ hp => .skip fun _ => .skip fun T => ?_
    refine (hc.check S T).bind fun _ hs => .skip fun _ => .skip fun _ =>
      .skip fun _ => .of_ok ?_
    exact ⟨rfl, Core.saysTypes_one rfl ht.1, ht.2, hp, hs⟩

theorem quaternary_demand (o : Surface.Quaternary) (ha : a.rules.Demand ta)
    (hb : b.rules.Demand tb) (hc : c.rules.Demand tc) (hd : d.rules.Demand td) :
    (quaternary E span o a b c d).Demand (o.expand ta tb tc td) := by
  cases o with
  | indNat =>
    refine inferred_requires fun S => (ha.check S .nat).bind fun _ ht => ?_
    refine (checkMotive_yields (hb.check S _)).bind fun _ hp => .skip fun T =>
      (hc.check S T).bind fun _ hb => ?_
    refine (hd.check S _).bind fun _ hs => .skip fun _ => .skip fun _ => .of_ok ?_
    exact ⟨rfl, Core.saysTypes_nil rfl, ht, hp, hb, hs⟩
  | indList =>
    refine inferred_requires fun S => (ha.findFormer .list _ S).bind fun _ ht => ?_
    refine (checkMotive_yields (hb.check S _)).bind fun _ hp => .skip fun T =>
      (hc.check S T).bind fun _ hb => ?_
    refine (hd.check S _).bind fun _ hs => .skip fun _ => .skip fun _ => .of_ok ?_
    exact ⟨rfl, Core.saysTypes_one rfl ht.1, ht.2, hp, hb, hs⟩
  | indEither =>
    refine inferred_requires fun S => (ha.findFormer .either _ S).bind fun _ ht => ?_
    refine (checkMotive_yields (hb.check S _)).bind fun _ hp =>
      (hc.check S _).bind fun _ hl => ?_
    refine (hd.check S _).bind fun _ hr => .skip fun _ => .skip fun _ => .of_ok ?_
    exact ⟨rfl, Core.saysTypes_one rfl ht.1, ht.2, hp, hl, hr⟩

theorem indVec_demand (ha : a.rules.Demand ta) (hb : b.rules.Demand tb) (hc : c.rules.Demand tc)
    (hd : d.rules.Demand td) (he : e.rules.Demand te) :
    (indVec E span a b c d e).Demand (.indVec ta tb tc td te) := by
  refine inferred_requires fun S => (ha.check S .nat).bind fun _ hl => .skip fun _ => ?_
  refine (hb.findFormer .vec _ S).bind fun _ ht => .skip fun _ => ?_
  refine (checkMotive_yields (hc.check S _)).bind fun _ hp => .skip fun _ => .skip fun T => ?_
  refine (hd.check S T).bind fun _ hb => (he.check S _).bind fun _ hs => ?_
  refine .skip fun _ => .skip fun _ => .skip fun _ => .of_ok ⟨rfl, ?_⟩
  exact ⟨Core.saysTypes_one rfl ht.1, hl, ht.2, hp, hb, hs⟩

end Operators

end Rules

namespace Surface

theorem forall₂_expands {es : List Expr} {ts : List Core} (h : expandList es = some ts) :
    List.Forall₂ Expands es ts := by
  induction es generalizing ts with
  | nil =>
    cases h
    exact .nil
  | cons e es ih =>
    simp only [expandList, Option.bind_eq_bind, Option.bind_eq_some_iff, Option.pure_def,
      Option.some.injEq] at h
    obtain ⟨t, ht, us, hus, rfl⟩ := h
    exact .cons ht (ih hus)

theorem forall₂_binds {binders : List (Site × Expr)} {bs : List (String × Core)}
    (h : expandBinders binders = some bs) :
    List.Forall₂ Binds binders bs := by
  induction binders generalizing bs with
  | nil =>
    cases h
    exact .nil
  | cons binder binders ih =>
    simp only [expandBinders, Option.bind_eq_bind, Option.bind_eq_some_iff, Option.pure_def,
      Option.some.injEq] at h
    obtain ⟨t, ht, us, hus, rfl⟩ := h
    exact .cons ⟨rfl, ht⟩ (ih hus)

theorem isTelling_arrows {t : Core} {ts : List Core} (ht : t.IsTelling)
    (hts : ∀ u ∈ ts, u.IsTelling) :
    (arrows t ts).IsTelling := by
  induction ts generalizing t with
  | nil => exact ht
  | cons u ts ih =>
    obtain ⟨hu, hts⟩ := List.forall_mem_cons.1 hts
    exact ⟨Core.saysTypes_nil rfl, ht, ih hu hts⟩

theorem isTelling_foldr_quant (q : Quantifier) {t : Core} (ht : t.IsTelling)
    {bs : List (String × Core)} (hbs : ∀ b ∈ bs, b.2.IsTelling) :
    (bs.foldr (fun b family => Core.quant q b.1 b.2 family) t).IsTelling := by
  induction bs with
  | nil => exact ht
  | cons b bs ih =>
    obtain ⟨hb, hbs⟩ := List.forall_mem_cons.1 hbs
    exact ⟨Core.saysTypes_nil rfl, hb, ih hbs⟩

theorem isTelling_foldr_lam {t : Core} (ht : t.IsTelling) (sites : List Site) :
    (sites.foldr (fun site body => Core.lam site.name body) t).IsTelling := by
  induction sites with
  | nil => exact ht
  | cons site sites ih => exact ⟨Core.saysTypes_nil rfl, ih⟩

/-- An application has a function that is not bare and is not bare itself. -/
theorem foldl_apply_telling {t : Core} (ht : t.isBare = false ∧ t.IsTelling) {ts : List Core}
    (hts : ∀ u ∈ ts, u.IsTelling) : (ts.foldl Core.apply t).isBare = false ∧
    (ts.foldl Core.apply t).IsTelling := by
  induction ts generalizing t with
  | nil => exact ht
  | cons u ts ih =>
    obtain ⟨hu, hts⟩ := List.forall_mem_cons.1 hts
    exact ih ⟨rfl, Core.saysTypes_one rfl ht.1, ht.2, hu⟩ hts

namespace Expr

section Parts

variable {E : Engine}

theorem partsOfList_demand {es : List Expr}
    (ih : ∀ a ∈ es, ∀ {t}, Expands a t → (a.rules E).Demand t) {ts : List Core}
    (h : List.Forall₂ Expands es ts) :
    List.Forall₂ (fun a u => a.rules.Demand u) (partsOfList E es) ts := by
  induction h with
  | nil => exact .nil
  | cons he _ ihs =>
    obtain ⟨ih, ihes⟩ := List.forall_mem_cons.1 ih
    exact .cons (ih he) (ihs ihes)

theorem partsOfBinders_demand {binders : List (Site × Expr)}
    (ih : ∀ b ∈ binders, ∀ {t}, Expands b.2 t → (b.2.rules E).Demand t)
    {bs : List (String × Core)} (h : List.Forall₂ Binds binders bs) :
    List.Forall₂ (fun b u => b.2.rules.Demand u.2) (partsOfBinders E binders) bs := by
  induction h with
  | nil => exact .nil
  | cons he _ ihs =>
    obtain ⟨ih, ihbinders⟩ := List.forall_mem_cons.1 ih
    exact .cons (ih he.2) (ihs ihbinders)

end Parts

/-- By induction on the expression: each reading looks at every part, and at a part whose type
it needs it finds the type first. -/
theorem rules_demand (E : Engine) (e : Expr) {t : Core} (h : Expands e t) :
    (e.rules E).Demand t := by
  induction e using Expr.induction generalizing t with
  | const s c =>
    cases h
    exact Rules.const_demand c
  | todo s =>
    cases h
    exact Rules.requires_of_telling _ rfl ⟨Core.saysTypes_nil rfl, Core.saysTypes_nil rfl⟩
  | var s x =>
    cases h
    exact Rules.requires_of_telling _ rfl (Core.saysTypes_nil rfl)
  | number s n =>
    cases h
    refine Rules.requires_of_telling _ ?_ (Core.isTelling_numeral n)
    cases n <;> rfl
  | quote s a =>
    cases h
    exact Rules.requires_of_telling _ rfl (Core.saysTypes_nil rfl)
  | unary s o a iha =>
    simp only [Expands, expand, Option.bind_eq_bind, Option.bind_eq_some_iff, Option.pure_def,
      Option.some.injEq] at h
    obtain ⟨ta, ha, rfl⟩ := h
    exact Rules.unary_demand o (iha ha)
  | binary s o a b iha ihb =>
    simp only [Expands, expand, Option.bind_eq_bind, Option.bind_eq_some_iff, Option.pure_def,
      Option.some.injEq] at h
    obtain ⟨ta, ha, tb, hb, rfl⟩ := h
    exact Rules.binary_demand o (iha ha) (ihb hb)
  | ternary s o a b c iha ihb ihc =>
    simp only [Expands, expand, Option.bind_eq_bind, Option.bind_eq_some_iff] at h
    obtain ⟨ta, ha, tb, hb, tc, hc, h⟩ := h
    exact Rules.ternary_demand o h (iha ha) (ihb hb) (ihc hc)
  | quaternary s o a b c d iha ihb ihc ihd =>
    simp only [Expands, expand, Option.bind_eq_bind, Option.bind_eq_some_iff, Option.pure_def,
      Option.some.injEq] at h
    obtain ⟨ta, ha, tb, hb, tc, hc, td, hd, rfl⟩ := h
    exact Rules.quaternary_demand o (iha ha) (ihb hb) (ihc hc) (ihd hd)
  | indVec s l v m b p ihl ihv ihm ihb ihp =>
    simp only [Expands, expand, Option.bind_eq_bind, Option.bind_eq_some_iff, Option.pure_def,
      Option.some.injEq] at h
    obtain ⟨tl, hl, tv, hv, tm, hm, tb, hb, tp, hp, rfl⟩ := h
    exact Rules.indVec_demand (ihl hl) (ihv hv) (ihm hm) (ihb hb) (ihp hp)
  | arrow s domain rest ihd ihr =>
    simp only [Expands, expand, Option.bind_eq_bind, Option.bind_eq_some_iff, Option.pure_def,
      Option.some.injEq] at h
    obtain ⟨td, hd, ts, hts, rfl⟩ := h
    have hdomain : Rules.Demand td (Part.mk domain (domain.rules E)).rules := ihd hd
    have hrest := partsOfList_demand ihr (forall₂_expands hts)
    rw [rules]
    generalize partsOfList E rest = parts at hrest
    refine Rules.former_requires (fun S => ?_) fun c S => ?_
    · cases hrest with
      | nil => exact hdomain.small S
      | cons => exact .of_forall fun _ _ => rfl
    · exact (Rules.nondependent_requires .pi c hdomain hrest S).mono fun _ h =>
        isTelling_arrows h.1 h.2
  | quant s q binders body ihb ih =>
    simp only [Expands, expand, Option.bind_eq_bind, Option.bind_eq_some_iff, Option.pure_def,
      Option.some.injEq] at h
    obtain ⟨bs, hbs, tb, hb, rfl⟩ := h
    have hbody : Rules.Demand tb (Part.mk body (body.rules E)).rules := ih hb
    have hbinders := partsOfBinders_demand ihb (forall₂_binds hbs)
    rw [rules]
    generalize partsOfBinders E binders = parts at hbinders
    refine Rules.former_requires (fun S => ?_) fun c S => ?_
    · cases hbinders with
      | nil => exact hbody.small S
      | cons => exact .of_forall fun _ _ => rfl
    · exact (Rules.telescope_requires q c hbody hbinders S).mono fun _ h =>
        isTelling_foldr_quant q h.2 h.1
  | lambda s parameters body ih =>
    simp only [Expands, expand, Option.bind_eq_bind, Option.bind_eq_some_iff, Option.pure_def,
      Option.some.injEq] at h
    obtain ⟨tb, hb, rfl⟩ := h
    have hbody : Rules.Demand tb (Part.mk body (body.rules E)).rules := ih hb
    refine Rules.checked_requires (fun S => ?_) fun S ty => ?_
    · cases parameters with
      | nil => exact hbody.small S
      | cons => exact S.rejectFormer_yields E s .pi _
    · exact (Rules.checkLambda_requires hbody parameters S ty).mono fun _ h =>
        isTelling_foldr_lam h parameters
  | apply s function arguments ihf iha =>
    simp only [Expands, expand, Option.bind_eq_bind, Option.bind_eq_some_iff, Option.pure_def,
      Option.some.injEq] at h
    obtain ⟨ts, hts, tf, hf, rfl⟩ := h
    have harguments := partsOfList_demand iha (forall₂_expands hts)
    refine Rules.inferred_requires fun S => ((ihf hf).synthesize S).bind fun f ht => ?_
    exact (Rules.applyTo_requires harguments S f.1 f.2).mono fun _ h => foldl_apply_telling ht h

end Expr

end Surface

namespace Surface

open Grammar

/-- A text that is one expression is a program of one form. -/
theorem parse_of_parseExpression {source : String} {e : Expr}
    (h : parseExpression source = .ok e) :
    parse source = .ok [.expression e] := by
  obtain ⟨ts, hlex, hlone⟩ := parseExpression_eq_ok_iff.1 h
  obtain ⟨hb, he, hb₁⟩ := hlone
  exact parse_eq_ok_iff.2 ⟨_, hlex, .forms hb (.one (.expression he)) hb₁⟩

end Surface

namespace Context

variable {E : Engine} {Γ : Context}

/-- An expression is accepted only if its text says enough. -/
theorem isTelling_of_process {e : Surface.Expr} {t : Core} (he : Surface.Expands e t)
    {r : Processed × Context} (h : Γ.process E (.expression e) = .ok r) : t.IsTelling := by
  obtain ⟨n, hn, -⟩ := bind_eq_ok_iff.1 h
  obtain ⟨found, hfound, -⟩ := bind_eq_ok_iff.1 hn
  exact (((e.rules_demand E he).synthesize _).of_eq_ok hfound).2

/-- The text of a term with a bare part where a type is to be found can be read, but no session
accepts it. -/
theorem bare_text_not_accepted (E : Engine) (Γ : Context) (t : Core) (h : t.Legible)
    (hbare : ¬ t.visible.IsTelling) :
    ∃ interrupt, Γ.runProgram E t.print = .ok ⟨[], Γ, some interrupt⟩ := by
  obtain ⟨e, hparse, hexpands⟩ := Surface.Shows.parseExpression (Core.shownAt_printAt h .alone)
  have hread := Surface.parse_of_parseExpression hparse
  cases hprocess : Γ.process E (.expression e) with
  | ok r => exact absurd (isTelling_of_process hexpands hprocess) hbare
  | error interrupt =>
    refine ⟨interrupt, ?_⟩
    have hprint : t.print = t.printAt .alone := rfl
    rw [runProgram, hprint, hread]
    show Except.ok (Γ.processAll E [.expression e]) = _
    rw [processAll, hprocess]

/-- A stuck `trans` with one side that is not stuck. -/
def stuckTrans : Core :=
  .the (.pi "x" (.ternary .equal .nat .zero .zero) (.ternary .equal .nat .zero .zero))
    (.lam "p" (.binary .trans (.unary .same .zero) (.var "p")))

theorem stuckTrans_legible : stuckTrans.Legible := by
  have hp : Core.IsName "p" := ⟨⟨.name, 0, "p"⟩, by decide +kernel, rfl⟩
  refine ⟨⟨nofun, ⟨trivial, trivial, trivial⟩, trivial, trivial, trivial⟩, hp,
    ⟨?_, trivial⟩, hp⟩
  rintro n ⟨⟩

theorem bare_text_not_accepted_stuckTrans :
    stuckTrans.print = "(the (-> (= Nat 0 0) (= Nat 0 0)) (λ (p) (trans (same 0) p)))" ∧
      stuckTrans.Legible ∧
      ¬ stuckTrans.visible.IsTelling ∧
      ∃ interrupt, Context.empty.runProgram .standard stuckTrans.print =
        .ok ⟨[], Context.empty, some interrupt⟩ := by
  have hbare : ¬ stuckTrans.visible.IsTelling := by
    simp [stuckTrans, Core.visible, Core.Everywhere, Core.SaysTypes, Core.sought, Core.isBare]
  exact ⟨by decide +kernel, stuckTrans_legible, hbare,
    bare_text_not_accepted _ _ _ stuckTrans_legible hbare⟩

/-- What `(= Nat 0 0)` is read as, where it stands at the given position of a text. -/
def zeroIsZero (position : Nat) : Surface.Expr :=
  .ternary ⟨position, position + 11⟩ .equal (.const ⟨position + 3, position + 6⟩ .nat)
    (.number ⟨position + 7, position + 8⟩ 0) (.number ⟨position + 9, position + 10⟩ 0)

/-- The lexemes of `(= Nat 0 0)`, where it stands at the given position of a text. -/
def zeroIsZeroLexemes (position : Nat) : List Lexeme :=
  [⟨.opening, position, "("⟩, ⟨.keyword (.ternary .equal), position + 1, "="⟩,
    ⟨.blank, position + 2, " "⟩, ⟨.keyword (.const .nat), position + 3, "Nat"⟩,
    ⟨.blank, position + 6, " "⟩, ⟨.number, position + 7, "0"⟩, ⟨.blank, position + 8, " "⟩,
    ⟨.number, position + 9, "0"⟩, ⟨.closing, position + 10, ")"⟩]

/-- The lexemes of `(the (-> (= Nat 0 0) (= Nat 0 0)) (λ (p) (trans (same 0) p)))`. -/
def stuckTransLexemes : List Lexeme :=
  [⟨.opening, 0, "("⟩, ⟨.keyword (.binary .the), 1, "the"⟩, ⟨.blank, 4, " "⟩,
    ⟨.opening, 5, "("⟩, ⟨.keyword .arrow, 6, "->"⟩, ⟨.blank, 8, " "⟩] ++ zeroIsZeroLexemes 9 ++
  [⟨.blank, 20, " "⟩] ++ zeroIsZeroLexemes 21 ++
  [⟨.closing, 32, ")"⟩, ⟨.blank, 33, " "⟩, ⟨.opening, 34, "("⟩, ⟨.keyword .lambda, 35, "λ"⟩,
    ⟨.blank, 37, " "⟩, ⟨.opening, 38, "("⟩, ⟨.name, 39, "p"⟩, ⟨.closing, 40, ")"⟩,
    ⟨.blank, 41, " "⟩, ⟨.opening, 42, "("⟩, ⟨.keyword (.binary .trans), 43, "trans"⟩,
    ⟨.blank, 48, " "⟩, ⟨.opening, 49, "("⟩, ⟨.keyword (.unary .same), 50, "same"⟩,
    ⟨.blank, 54, " "⟩, ⟨.number, 55, "0"⟩, ⟨.closing, 56, ")"⟩, ⟨.blank, 57, " "⟩,
    ⟨.name, 58, "p"⟩, ⟨.closing, 59, ")"⟩, ⟨.closing, 60, ")"⟩, ⟨.closing, 61, ")"⟩]

/-- What `(the (-> (= Nat 0 0) (= Nat 0 0)) (λ (p) (trans (the (= Nat 0 0) (same 0)) p)))` is
read as. -/
def annotatedTrans : Surface.Expr :=
  .binary ⟨0, 80⟩ .the (.arrow ⟨5, 33⟩ (zeroIsZero 9) [zeroIsZero 21])
    (.lambda ⟨34, 79⟩ [⟨⟨39, 40⟩, "p"⟩] (.binary ⟨42, 78⟩ .trans
      (.binary ⟨49, 75⟩ .the (zeroIsZero 54) (.unary ⟨66, 74⟩ .same (.number ⟨72, 73⟩ 0)))
      (.var ⟨76, 77⟩ "p")))

/-- A printed normal form need not be accepted again: a side of a `trans` loses its annotation
when it is read back. -/
theorem printed_normal_form_is_rejected :
    Context.empty.process .standard (.expression annotatedTrans) =
      .ok (⟨.normalized stuckTrans, []⟩, Context.empty) ∧
    ∃ transcript, Context.empty.runProgram .standard stuckTrans.print = .ok transcript ∧
      transcript.interrupt = some (.rejected ⟨⟨49, 57⟩, .cannotSynthesize⟩) := by
  have hlex : lex stuckTrans.print = .ok stuckTransLexemes := by decide +kernel
  have hread : Surface.parse stuckTrans.print =
      .ok [.expression (.binary ⟨0, 62⟩ .the (.arrow ⟨5, 33⟩ (zeroIsZero 9) [zeroIsZero 21])
        (.lambda ⟨34, 61⟩ [⟨⟨39, 40⟩, "p"⟩] (.binary ⟨42, 60⟩ .trans
          (.unary ⟨49, 57⟩ .same (.number ⟨55, 56⟩ 0)) (.var ⟨58, 59⟩ "p"))))] :=
    Surface.parse_of_lex hlex rfl
  exact ⟨rfl, _, bind_of_ok hread _, rfl⟩

end Context

end PieChecker
