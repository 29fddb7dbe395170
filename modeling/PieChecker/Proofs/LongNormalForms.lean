import PieChecker.Proofs.Canonicity.NormalForms
import PieChecker.Proofs.EvaluatedValues
import PieChecker.Proofs.FreshNames

set_option autoImplicit false

/-!
# Read-back returns long normal forms

In a term that read-back returns no eliminator can go on: its target is *neutral*, a variable or
an unfinished part below a chain of eliminators. Besides, the term is as long as its type
demands, that is a `λ` at a function type and a pair at a type of pairs. None of this needs
types to be right. What it needs is that the values come from evaluation: that a `trans` which
waits for one operand has a reflexive equality as the other one is known of such values only.

The induction over read-back also tells when names do not run out. That is the case if no binder
has a name that ends in subscript digits and there is *room*: fewer names are in use than there
are subscripts, with one name to spare for each unit of fuel, since read-back binds at most one
name for each.
-/

namespace PieChecker

open Likeness

/-! ## Normal forms -/

namespace Core

/-- Is it a proof of equality by `same`? -/
def isSame : Core → Bool
  | unary .same _ => true
  | _ => false

/-- Is the term neutral, a variable or an unfinished part below a chain of eliminators? For
`ind-Absurd` the target is annotated with its type, and a `trans` has a neutral side and another
side that is neutral as well or a `same`. -/
def isNeutral : Core → Bool
  | var _ | todo _ _ => true
  | unary .car t | unary .cdr t | unary .symm t | unary .head t | unary .tail t => t.isNeutral
  | binary .apply t _ => t.isNeutral
  | binary .indAbsurd (the absurd t) _ => t.isNeutral
  | binary .trans t u => (t.isNeutral && (u.isNeutral || u.isSame)) || (t.isSame && u.isNeutral)
  | ternary .replace t _ _ | ternary .cong t _ _ | ternary .indEq t _ _ => t.isNeutral
  | quaternary _ t _ _ _ | indVec _ t _ _ _ => t.isNeutral
  | _ => false

/-- An eliminator has a neutral target, and an annotation is that of a neutral term with
`Absurd`. -/
def IsStuck (t : Core) : Prop :=
  t.isElimination = true → t.isNeutral = true ∨ ∃ p, t = the absurd p ∧ p.isNeutral = true

/-- Nothing in the term can be evaluated. -/
abbrev IsNormal (t : Core) : Prop := t.Everywhere IsStuck

/-- The term is as long as its type demands. -/
def IsLongAt : (ty : Value) → (t : Core) → Prop
  | .pi _ _ _, t => ∃ x body, t = lam x body
  | .sigma _ _ _, t => ∃ a d, t = binary .cons a d
  | .const .trivial, t => t = const .sole
  | .const .absurd, t => ∃ p, t = the absurd p ∧ p.isNeutral = true
  | _, _ => True

theorem IsStuck.neutral {t : Core} (h : t.isNeutral = true) : t.IsStuck := fun _ => Or.inl h

/-- Constructors and type formers have no target. -/
theorem IsStuck.inert {t : Core} (h : t.isElimination = false) : t.IsStuck := by
  intro helimination
  rw [h] at helimination
  cases helimination

theorem isNormal_the_absurd {p : Core} (h : p.isNeutral = true ∧ p.IsNormal) :
    (the absurd p).IsNormal :=
  ⟨fun _ => Or.inr ⟨p, rfl, h.1⟩, .inert rfl, h.2⟩

theorem isNeutral_project (o : Neutral.Projection) (t : Core) :
    (unary o.operator t).isNeutral = t.isNeutral := by
  cases o <;> rfl

theorem isNeutral_transport (o : Neutral.Transport) (t m b : Core) :
    (ternary o.operator t m b).isNeutral = t.isNeutral := by
  cases o <;> rfl

end Core

/-! ## Room for names -/

/-- Names cannot run out while read-back has the given fuel, unless that is allowed. -/
def Room (label : String → Prop) (overflow : Prop) (names : List String) (fuel : Nat) : Prop :=
  overflow ∨ (∀ x, label x → Name.IsPlain x) ∧ names.length + fuel ≤ Name.maxSubscript

namespace Room

variable {label : String → Prop} {overflow : Prop} {names : List String} {n : Nat}

theorem of_succ (h : Room label overflow names (n + 1)) : Room label overflow names n := by
  rcases h with h | ⟨hplain, hlength⟩
  · exact Or.inl h
  · exact Or.inr ⟨hplain, by omega⟩

/-- A name that is bound with a unit of fuel keeps the room. -/
theorem cons (h : Room label overflow names (n + 1)) (y : String) :
    Room label overflow (y :: names) n := by
  rcases h with h | ⟨hplain, hlength⟩
  · exact Or.inl h
  · refine Or.inr ⟨hplain, ?_⟩
    rw [List.length_cons]
    omega

theorem freshen (h : Room label overflow names (n + 1)) {x : String} (hx : label x) :
    Ends (Stop.Allowed overflow) (fun _ => True) (Name.freshen names x) := by
  rcases h with h | ⟨hplain, hlength⟩
  · exact .of_forall (fun _ _ => True.intro) fun _ _ _ => h
  · have hnames : names.length < Name.maxSubscript := by omega
    obtain ⟨y, hy⟩ := (hplain x hx).exists_freshen hnames
    rw [hy]
    exact True.intro

end Room

/-! ## Read-back -/

/-- Read-back with the given fuel returns normal forms, if it is given what is like itself, and
names do not run out. -/
structure ReadsNormally (strategy : Strategy) (label : String → Prop) (overflow : Prop)
    (n : Nat) : Prop where
  value : ∀ {names ty v}, Room label overflow names n →
    (Likeness.itself strategy label overflow).value ty ty →
    (Likeness.itself strategy label overflow).value v v →
    Ends (Stop.Allowed overflow) Core.IsNormal (ty.readBack strategy n names v)
  type : ∀ {names ty}, Room label overflow names n →
    (Likeness.itself strategy label overflow).value ty ty →
    Ends (Stop.Allowed overflow) Core.IsNormal (ty.readBackType strategy n names)
  neutral : ∀ {names e}, Room label overflow names n →
    (Likeness.itself strategy label overflow).neutral e e →
    Ends (Stop.Allowed overflow) (fun t => t.isNeutral = true ∧ t.IsNormal)
      (e.readBack strategy n names)

/-- A reflexive equality is read back as a `same`. -/
theorem Value.isSame_readBack_reflexive {strategy : Strategy} {n : Nat} {names : List String}
    {space point : Value} {t : Core}
    (h : (Value.reflexive space point).readBack strategy n names = .ok t) :
    t.isSame = true := by
  cases n with
  | zero => cases h
  | succ n =>
    obtain ⟨_, ⟨⟩, h⟩ := bind_eq_ok_iff.1 h
    obtain ⟨_, ⟨⟩, h⟩ := bind_eq_ok_iff.1 h
    obtain ⟨p, _, ⟨⟩⟩ := bind_eq_ok_iff.1 h
    rfl

theorem nat_itself {strategy : Strategy} {label : String → Prop} {overflow : Prop} :
    (Likeness.itself strategy label overflow).value .nat .nat :=
  renamed_closed.ofHead (.const .nat)

namespace ReadsNormally

variable {strategy : Strategy} {label : String → Prop} {overflow : Prop} {n : Nat}
  (h : ReadsNormally strategy label overflow n) {names : List String}

section Neutral

variable (room : Room label overflow names n)

include h room

theorem normal {a : Normal} (ha : (Likeness.itself strategy label overflow).normal a a) :
    Ends (Stop.Allowed overflow) Core.IsNormal (a.readBack strategy n names) := by
  cases a
  exact h.value room ha.1 ha.2

/-- The operand of a stuck `trans` that does not wait. -/
theorem reflexive {space point : Value}
    (hspace : (Likeness.itself strategy label overflow).value space space)
    (hpoint : (Likeness.itself strategy label overflow).value point point) :
    Ends (Stop.Allowed overflow) (fun t => t.isSame = true ∧ t.IsNormal)
      ((Value.reflexive space point).readBack strategy n names) := by
  have hnormal := h.normal room (renamed_closed.reflexive hspace hpoint)
  exact .of_forall (fun t ht => ⟨Value.isSame_readBack_reflexive ht, hnormal.of_eq_ok ht⟩)
    fun s hs => hnormal.of_eq_error hs

/-- One step of reading a stuck elimination back. -/
theorem neutral_succ {e : Neutral}
    (hself : (Likeness.itself strategy label overflow).neutral e e) :
    Ends (Stop.Allowed overflow) (fun t => t.isNeutral = true ∧ t.IsNormal)
      (e.readBack strategy (n + 1) names) := by
  cases renamed_below_rule.neutral hself with
  | var => exact ⟨rfl, Core.IsStuck.neutral rfl⟩
  | todo _ hty =>
    exact (h.type room hty).bind fun t ht => .of_ok ⟨rfl, Core.IsStuck.neutral rfl, ht⟩
  | eliminations hparts =>
    cases hparts with
    | project o he =>
      refine (h.neutral room he).bind fun t ht => .of_ok ?_
      have hneutral := (Core.isNeutral_project o t).trans ht.1
      exact ⟨hneutral, .neutral hneutral, ht.2⟩
    | apply he ha =>
      exact (h.neutral room he).bind fun t ht => (h.normal room ha).bind fun a ha =>
        .of_ok ⟨ht.1, .neutral ht.1, ht.2, ha⟩
    | recursor o he hbase hs =>
      rename_i base _
      obtain ⟨ty, base⟩ := base
      exact (h.neutral room he).bind fun t ht => (h.type room hbase.1).bind fun p hp =>
        (h.normal room hbase).bind fun b hb => (h.normal room hs).bind fun s hs =>
          .of_ok ⟨ht.1, .neutral ht.1, ht.2, hp, hb, hs⟩
    | transport o he hm hb =>
      refine (h.neutral room he).bind fun t ht => (h.normal room hm).bind fun m hm =>
        (h.normal room hb).bind fun b hb => .of_ok ?_
      have hneutral := (Core.isNeutral_transport o t m b).trans ht.1
      exact ⟨hneutral, .neutral hneutral, ht.2, hm, hb⟩
    | induct o he hm hb hs =>
      exact (h.neutral room he).bind fun t ht => (h.normal room hm).bind fun m hm =>
        (h.normal room hb).bind fun b hb => (h.normal room hs).bind fun s hs =>
          .of_ok ⟨ht.1, .neutral ht.1, ht.2, hm, hb, hs⟩
    | indAbsurd he hm =>
      exact (h.neutral room he).bind fun t ht => (h.normal room hm).bind fun m hm =>
        .of_ok ⟨ht.1, .neutral ht.1, Core.isNormal_the_absurd ht, hm⟩
    | cong he hr hf =>
      exact (h.neutral room he).bind fun t ht => (h.normal room hr).bind fun r hr =>
        (h.normal room hf).bind fun f hf => .of_ok ⟨ht.1, .neutral ht.1, ht.2, hr, hf⟩
    | transLeft he hs hp =>
      -- The operand that is not waited for is a `same`; of a value that is not like itself this
      -- could not be said.
      refine (h.neutral room he).bind fun l hl => (h.reflexive room hs hp).bind fun r hr =>
        .of_ok ?_
      have hneutral : (Core.binary .trans l r).isNeutral = true := by
        simp [Core.isNeutral, hl.1, hr.1]
      exact ⟨hneutral, .neutral hneutral, hl.2, hr.2⟩
    | transRight hs hp he =>
      refine (h.reflexive room hs hp).bind fun l hl => (h.neutral room he).bind fun r hr =>
        .of_ok ?_
      have hneutral : (Core.binary .trans l r).isNeutral = true := by
        simp [Core.isNeutral, hl.1, hr.1]
      exact ⟨hneutral, .neutral hneutral, hl.2, hr.2⟩
    | transBoth he hf =>
      refine (h.neutral room he).bind fun l hl => (h.neutral room hf).bind fun r hr => .of_ok ?_
      have hneutral : (Core.binary .trans l r).isNeutral = true := by
        simp [Core.isNeutral, hl.1, hr.1]
      exact ⟨hneutral, .neutral hneutral, hl.2, hr.2⟩
    | indVecTarget hl he hm hb hs =>
      exact (h.normal room hl).bind fun l hl => (h.neutral room he).bind fun t ht =>
        (h.normal room hm).bind fun m hm =>
        (h.normal room hb).bind fun b hb => (h.normal room hs).bind fun s hs =>
          .of_ok ⟨ht.1, .neutral ht.1, hl, ht.2, hm, hb, hs⟩
    | indVecBoth hl he hm hb hs =>
      exact (h.neutral room hl).bind fun l hl => (h.neutral room he).bind fun t ht =>
        (h.normal room hm).bind fun m hm => (h.normal room hb).bind fun b hb =>
          (h.normal room hs).bind fun s hs =>
          .of_ok ⟨ht.1, .neutral ht.1, hl.2, ht.2, hm, hb, hs⟩
  | transLeft hany | transRight hany => exact False.elim hany

end Neutral

section Value

variable (hb : (Comparison.itself strategy label overflow).KeepsOperands)
  (room : Room label overflow names (n + 1))

include h hb room

/-- One step of reading a type back. -/
theorem type_succ {ty : Value} (hty : (Likeness.itself strategy label overflow).value ty ty) :
    Ends (Stop.Allowed overflow) Core.IsNormal (ty.readBackType strategy (n + 1) names) := by
  have now := room.of_succ
  refine (Comparison.ends_of_itself (renamed_closed.now hty)).bind fun T hT => ?_
  cases hT with
  | neutral _ he => exact (h.neutral now he).mono fun _ ht => ht.2
  | const c =>
    cases c with
    | univ | nat | atom | trivial | absurd => exact Core.IsStuck.inert rfl
    | _ => exact Stop.ends_broken
  | quant q hx hbase hfamily =>
    refine (room.freshen hx).bind fun y _ => (h.type now hbase).bind fun b hnormal => ?_
    have hrun := (applies_itself hb n).run hfamily (variable_itself y hbase)
    refine (Comparison.ends_of_itself hrun).bind fun r hr => ?_
    exact (h.type (room.cons y) hr).bind fun f hf => .of_ok ⟨.inert rfl, hnormal, hf⟩
  | unary o hentry =>
    cases o with
    | list => exact (h.type now hentry).bind fun e he => .of_ok ⟨.inert rfl, he⟩
    | _ => exact Stop.ends_broken
  | binary o hl hr =>
    cases o with
    | vec =>
      exact (h.type now hl).bind fun e he => (h.value now nat_itself hr).bind fun l hl =>
        .of_ok ⟨.inert rfl, he, hl⟩
    | either =>
      exact (h.type now hl).bind fun l hl => (h.type now hr).bind fun r hr =>
        .of_ok ⟨.inert rfl, hl, hr⟩
    | _ => exact Stop.ends_broken
  | equal hspace hl hr =>
    exact (h.type now hspace).bind fun s hs => (h.value now hspace hl).bind fun l hl =>
      (h.value now hspace hr).bind fun r hr => .of_ok ⟨.inert rfl, hs, hl, hr⟩
  | _ => exact Stop.ends_broken

/-- One step of reading a function back. -/
theorem pi_succ {x : String} {base v : Value} {family : Closure} (hx : label x)
    (hbase : (Likeness.itself strategy label overflow).value base base)
    (hfamily : (Likeness.itself strategy label overflow).closure family family)
    (hv : (Likeness.itself strategy label overflow).Head v v) :
    Ends (Stop.Allowed overflow) Core.IsNormal (do
      let y ← Name.freshen names (v.parameterName x)
      let result ← Closure.run strategy n family (.var y base)
      let body ← Value.apply strategy n v (.var y base)
      return .lam y (← Value.readBack strategy n (y :: names) result body)) := by
  have hname : label (v.parameterName x) := by
    cases hv with
    | lam hx _ => exact hx
    | _ => exact hx
  have happlies := applies_itself hb n
  refine (room.freshen hname).bind fun y _ => ?_
  have hvariable := variable_itself y hbase
  refine (Comparison.ends_of_itself (happlies.run hfamily hvariable)).bind fun r hr => ?_
  have happly := happlies.apply (renamed_closed.ofHead hv) hvariable
  refine (Comparison.ends_of_itself happly).bind fun b hbody => ?_
  exact (h.value (room.cons y) hr hbody).bind fun t ht => .of_ok ⟨.inert rfl, ht⟩

/-- One step of reading a pair back. -/
theorem sigma_succ {base v : Value} {family : Closure}
    (hbase : (Likeness.itself strategy label overflow).value base base)
    (hfamily : (Likeness.itself strategy label overflow).closure family family)
    (hv : (Likeness.itself strategy label overflow).Head v v) :
    Ends (Stop.Allowed overflow) Core.IsNormal (do
      let a ← v.car
      let result ← Closure.run strategy n family a
      let d ← Value.readBack strategy n names result
        (← v.cdr ⟨Value.apply strategy n, Closure.run strategy n⟩)
      return .binary .cons (← Value.readBack strategy n names base a) d) := by
  have now := room.of_succ
  have happlies := applies_itself hb n
  have hpair := renamed_closed.ofHead hv
  refine (Comparison.ends_of_itself (car renamed_closed hpair)).bind fun a ha => ?_
  refine (Comparison.ends_of_itself (happlies.run hfamily ha)).bind fun r hr => ?_
  refine (Comparison.ends_of_itself (cdr renamed_closed happlies hpair)).bind fun d hd => ?_
  exact (h.value now hr hd).bind fun u hu => (h.value now hbase ha).bind fun t ht =>
    .of_ok ⟨.inert rfl, ht, hu⟩

/-- One step of reading a value back. -/
theorem value_succ {ty v : Value} (hty : (Likeness.itself strategy label overflow).value ty ty)
    (hv : (Likeness.itself strategy label overflow).value v v) :
    Ends (Stop.Allowed overflow) Core.IsNormal (ty.readBack strategy (n + 1) names v) := by
  have now := room.of_succ
  have stuck : ∀ {e : Neutral}, (Likeness.itself strategy label overflow).neutral e e →
      Ends (Stop.Allowed overflow) Core.IsNormal (e.readBack strategy n names) :=
    fun he => (h.neutral now he).mono fun _ ht => ht.2
  refine (Comparison.ends_of_itself (renamed_closed.now hty)).bind fun T hT => ?_
  refine (Comparison.ends_of_itself (renamed_closed.now hv)).bind fun v hv => ?_
  cases hT with
  | const c =>
    cases c with
    | univ => exact h.type now (renamed_closed.ofHead hv)
    | nat =>
      cases hv with
      | neutral _ he => exact stuck he
      | const c =>
        cases c with
        | zero => exact Core.IsStuck.inert rfl
        | _ => exact Stop.ends_broken
      | unary o hp =>
        cases o with
        | add1 => exact (h.value now nat_itself hp).bind fun p hp => .of_ok ⟨.inert rfl, hp⟩
        | _ => exact Stop.ends_broken
      | _ => exact Stop.ends_broken
    | atom =>
      cases hv with
      | neutral _ he => exact stuck he
      | quote a => exact Core.IsStuck.inert rfl
      | _ => exact Stop.ends_broken
    | trivial => exact Core.IsStuck.inert rfl
    | absurd =>
      cases hv with
      | neutral _ he =>
        exact (h.neutral now he).bind fun p hp => .of_ok (Core.isNormal_the_absurd hp)
      | _ => exact Stop.ends_broken
    | _ =>
      cases hv with
      | neutral _ he => exact stuck he
      | _ => exact Stop.ends_broken
  | quant q hx hbase hfamily =>
    cases q with
    | pi => exact h.pi_succ hb room hx hbase hfamily hv
    | sigma => exact h.sigma_succ hb room hbase hfamily hv
  | unary o hentry =>
    cases o with
    | list =>
      cases hv with
      | neutral _ he => exact stuck he
      | const c =>
        cases c with
        | nil => exact Core.IsStuck.inert rfl
        | _ => exact Stop.ends_broken
      | binary o hhead htail =>
        cases o with
        | listCons =>
          exact (h.value now hentry hhead).bind fun a ha =>
            (h.value now (renamed_closed.ofHead (.unary .list hentry)) htail).bind fun d hd =>
              .of_ok ⟨.inert rfl, ha, hd⟩
        | _ => exact Stop.ends_broken
      | _ => exact Stop.ends_broken
    | _ =>
      cases hv with
      | neutral _ he => exact stuck he
      | _ => exact Stop.ends_broken
  | binary o hl hr =>
    cases o with
    | vec =>
      cases hv with
      | neutral _ he => exact stuck he
      | const c =>
        cases c with
        | vecnil => exact Core.IsStuck.inert rfl
        | _ => exact Stop.ends_broken
      | binary o hhead htail =>
        cases o with
        | vecCons =>
          refine (Comparison.ends_of_itself (renamed_closed.now hr)).bind fun l hlength => ?_
          cases hlength with
          | unary o hprevious =>
            cases o with
            | add1 =>
              exact (h.value now hl hhead).bind fun a ha =>
                (h.value now (renamed_closed.ofHead (.binary .vec hl hprevious)) htail).bind
                  fun d hd => .of_ok ⟨.inert rfl, ha, hd⟩
            | _ => exact Stop.ends_broken
          | _ => exact Stop.ends_broken
        | _ => exact Stop.ends_broken
      | _ => exact Stop.ends_broken
    | either =>
      cases hv with
      | neutral _ he => exact stuck he
      | unary o ha =>
        cases o with
        | left => exact (h.value now hl ha).bind fun a ha => .of_ok ⟨.inert rfl, ha⟩
        | right => exact (h.value now hr ha).bind fun b hb => .of_ok ⟨.inert rfl, hb⟩
        | _ => exact Stop.ends_broken
      | _ => exact Stop.ends_broken
    | _ =>
      cases hv with
      | neutral _ he => exact stuck he
      | _ => exact Stop.ends_broken
  | equal hspace _ _ =>
    cases hv with
    | neutral _ he => exact stuck he
    | unary o hp =>
      cases o with
      | same => exact (h.value now hspace hp).bind fun p hp => .of_ok ⟨.inert rfl, hp⟩
      | _ => exact Stop.ends_broken
    | _ => exact Stop.ends_broken
  | _ =>
    cases hv with
    | neutral _ he => exact stuck he
    | _ => exact Stop.ends_broken

end Value

end ReadsNormally

/-- Read-back returns normal forms with any fuel. -/
theorem readsNormally {strategy : Strategy} {label : String → Prop} {overflow : Prop}
    (hb : (Comparison.itself strategy label overflow).KeepsOperands) (n : Nat) :
    ReadsNormally strategy label overflow n := by
  induction n with
  | zero =>
    exact ⟨fun _ _ _ => Stop.ends_exhausted, fun _ _ => Stop.ends_exhausted, fun _ _ =>
      Stop.ends_exhausted⟩
  | succ n h =>
    exact
      { value := fun room hty hv => h.value_succ hb room hty hv
        type := fun room hty => h.type_succ hb room hty
        neutral := fun room he => h.neutral_succ room.of_succ he }

/-! ## Values that come from evaluation -/

namespace Value

variable {strategy : Strategy} {n : Nat} {names : List String} {ty v w : Value} {t : Core}

theorem exists_annotation_of_readBack
    (h : (Value.const .absurd).readBack strategy n names v = .ok t) :
    ∃ p, t = .the .absurd p := by
  cases n with
  | zero => cases h
  | succ n =>
    obtain ⟨_, ⟨⟩, h⟩ := bind_eq_ok_iff.1 h
    obtain ⟨u, -, h⟩ := bind_eq_ok_iff.1 h
    cases u with
    | neutral ty stuck =>
      obtain ⟨p, -, ⟨⟩⟩ := bind_eq_ok_iff.1 h
      exact ⟨p, rfl⟩
    | _ => cases h

/-- A normal form that is read back at a type is as long as the type demands. -/
theorem isLongAt_readBack (hw : ty.now = .ok w) (h : ty.readBack strategy n names v = .ok t)
    (ht : t.IsNormal) :
    t.IsLongAt w := by
  unfold Core.IsLongAt
  split
  · rw [readBack_of_now hw rfl] at h
    exact exists_lam_of_readBack h
  · rw [readBack_of_now hw rfl] at h
    exact exists_cons_of_readBack h
  · rw [readBack_of_now hw rfl] at h
    exact eq_sole_of_readBack h
  · rw [readBack_of_now hw rfl] at h
    obtain ⟨p, rfl⟩ := exists_annotation_of_readBack h
    rcases ht.1 rfl with hneutral | ⟨_, ⟨⟩, hneutral⟩
    · cases hneutral
    · exact ⟨p, rfl, hneutral⟩
  · exact True.intro

namespace Evaluated

/-- What comes from evaluation with binders of any names is read back as a normal form. -/
theorem isNormal_readBack (hty : ty.Evaluated strategy fun _ => True)
    (hv : v.Evaluated strategy fun _ => True) (h : ty.readBack strategy n names v = .ok t) :
    t.IsNormal := by
  have hb : (Comparison.itself strategy (fun _ => True) True).KeepsOperands :=
    .of_forall fun _ => True.intro
  exact ((readsNormally hb n).value (Or.inl True.intro) (hty.itself hb)
    (hv.itself hb)).of_eq_ok h

theorem isNormal_readBackType (hty : ty.Evaluated strategy fun _ => True)
    (h : ty.readBackType strategy n names = .ok t) : t.IsNormal := by
  have hb : (Comparison.itself strategy (fun _ => True) True).KeepsOperands :=
    .of_forall fun _ => True.intro
  exact ((readsNormally hb n).type (Or.inl True.intro) (hty.itself hb)).of_eq_ok h

end Evaluated

end Value

namespace Context

/-- Read-back only returns long normal forms: in a context whose values come from evaluation,
whatever terms are evaluated to a type and a value, and whatever the fuel, the term that is read
back is normal and as long as the type demands, and a type that is read back is normal. -/
theorem readBack_returns_long_normal_forms {strategy : Strategy} {Γ : Context}
    (hΓ : Γ.environment.Evaluated strategy fun _ => True) {n m : Nat} {T t : Core}
    {ty v : Value} (hty : Γ.evaluate ⟨strategy, n⟩ T = .ok ty)
    (hv : Γ.evaluate ⟨strategy, m⟩ t = .ok v) (k : Nat) :
    (∀ u, Γ.readBack ⟨strategy, k⟩ ty v = .ok u → u.IsNormal ∧ ∀ w, ty.now = .ok w →
      u.IsLongAt w) ∧
    ∀ u, Γ.readBackType ⟨strategy, k⟩ ty = .ok u → u.IsNormal := by
  have hty : ty.Evaluated strategy fun _ => True :=
    .term hΓ (Core.labelled_of_forall (fun _ => True.intro) T) hty
  have hv : v.Evaluated strategy fun _ => True :=
    .term hΓ (Core.labelled_of_forall (fun _ => True.intro) t) hv
  refine ⟨?_, ?_⟩
  · intro u hu
    have hnormal := hty.isNormal_readBack hv hu
    exact ⟨hnormal, fun w hw => Value.isLongAt_readBack hw hu hnormal⟩
  · intro u hu
    exact hty.isNormal_readBackType hu

/-- A context with a proof that zero is zero. -/
def withProof : Context := Context.empty.extendFree "p" (.equal .nat .zero .zero)

theorem evaluated_withProof : withProof.environment.Evaluated .onDemand fun _ => True := by
  intro x v hmem
  cases List.mem_singleton.1 hmem
  have hty : (Core.ternary .equal .nat .zero .zero).evaluate .onDemand 2 [] =
      .ok (.equal .nat .zero .zero) := rfl
  have hempty : Environment.Evaluated .onDemand (fun _ => True) [] := nofun
  exact .free "p" (.term hempty (Core.labelled_of_forall (fun _ => True.intro) _) hty)

/-- A function that returns a stuck `trans`, evaluated and read back at its type. -/
theorem readBack_function_to_stuck_trans :
    withProof.environment.Evaluated .onDemand (fun _ => True) ∧
    ∃ ty v,
      withProof.evaluate ⟨.onDemand, 2⟩ (.pi "x" .nat (.ternary .equal .nat .zero .zero)) =
        .ok ty ∧
      withProof.evaluate ⟨.onDemand, 1⟩
        (.lam "y" (.binary .trans (.var "p") (.unary .same .zero))) = .ok v ∧
      withProof.readBack ⟨.onDemand, 6⟩ ty v =
        .ok (.lam "y" (.binary .trans (.var "p") (.unary .same .zero))) ∧
      (Core.lam "y" (.binary .trans (.var "p") (.unary .same .zero))).IsNormal ∧
      ty.now = .ok ty ∧
      (Core.lam "y" (.binary .trans (.var "p") (.unary .same .zero))).IsLongAt ty := by
  refine ⟨evaluated_withProof, _, _, rfl, rfl, rfl, ?_⟩
  have h := readBack_returns_long_normal_forms evaluated_withProof (n := 2) (m := 1)
    (T := .pi "x" .nat (.ternary .equal .nat .zero .zero))
    (t := .lam "y" (.binary .trans (.var "p") (.unary .same .zero))) rfl rfl 6
  obtain ⟨hnormal, hlong⟩ := h.1 _ rfl
  exact ⟨hnormal, rfl, hlong _ rfl⟩

end Context

end PieChecker
