import PieChecker.Proofs.Canonicity.Settling

set_option autoImplicit false

/-!
# Codes of closed types

A code stands for a closed type: it says which closed values the type has and when two of them
are equal, `Relates`, and which type values it is the code of, `Denotes`. Functions are equal if
they take equal arguments to equal results, so what a function does is part of this, and so is
that it always gives a result.

The universe needs care: two types are equal elements of it if they have a small code in common,
that is one without the universe inside. Everything is therefore defined for an arbitrary
reading of the universe first. Small codes do not depend on it, so the reading under which no
types are elements of the universe gives the meaning of small codes, and these give the
universe.
-/

namespace PieChecker

/-- A code of a closed type. The family of a dependent type gives a code for every value of the
base. -/
inductive Code where
  | univ | nat | atom | trivial | absurd
  | list (entry : Code)
  | vec (entry : Code) (length : Value)
  | either (left right : Code)
  | equal (space : Code) (lhs rhs : Value)
  | quant (q : Quantifier) (base : Code) (family : Value → Code)

namespace Value

/-- Lists with related entries. -/
inductive ListsRelated (R : Value → Value → Prop) : Value → Value → Prop where
  | nil : ListsRelated R (.const .nil) (.const .nil)
  | cons {a b as bs : Value} (h : R a b) (hs : ListsRelated R as bs) :
    ListsRelated R (.listCons a as) (.listCons b bs)

/-- Lists of the same known length with related entries. -/
inductive VecsRelated (R : Value → Value → Prop) : Value → Value → Value → Prop where
  | nil : VecsRelated R .zero (.const .vecnil) (.const .vecnil)
  | cons {n a b as bs : Value} (h : R a b) (hs : VecsRelated R n as bs) :
    VecsRelated R (.add1 n) (.vecCons a as) (.vecCons b bs)

theorem VecsRelated.isNumeral {R : Value → Value → Prop} {n v w : Value}
    (h : VecsRelated R n v w) : n.IsNumeral := by
  induction h with
  | nil => exact .zero
  | cons _ _ ih => exact .add1 ih

/-- Related elements of the same side of a sum. -/
inductive SumsRelated (R R' : Value → Value → Prop) : Value → Value → Prop where
  | left {a b : Value} (h : R a b) : SumsRelated R R' (.unary .left a) (.unary .left b)
  | right {a b : Value} (h : R' a b) : SumsRelated R R' (.unary .right a) (.unary .right b)

end Value

namespace Code

/-- The code of functions whose results all have the same type. -/
abbrev arrow (base result : Code) : Code := quant .pi base fun _ => result

section Reading

/-- When two closed values are equal elements of a type, for a given reading of the universe. -/
def relatesIn (U : Value → Value → Prop) : Code → Value → Value → Prop
  | univ => U
  | nat => fun v w => v = w ∧ v.IsNumeral
  | atom => fun v w => ∃ a, v = .quote a ∧ w = .quote a
  | trivial => fun v w => v = .const .sole ∧ w = .const .sole
  | absurd => fun _ _ => False
  | list A => Value.ListsRelated (A.relatesIn U)
  | vec A n => Value.VecsRelated (A.relatesIn U) n
  | either A B => Value.SumsRelated (A.relatesIn U) (B.relatesIn U)
  | equal A l r => fun v w =>
    ∃ p q, v = .same p ∧ w = .same q ∧ A.relatesIn U p l ∧ A.relatesIn U q l ∧ A.relatesIn U l r
  | quant .pi A F => fun f g => ∀ a b, A.relatesIn U a b →
    ∃ r s, f.Applies a r ∧ g.Applies b s ∧ (F a).relatesIn U r s
  | quant .sigma A F =>
    fun v w => ∃ a d b e, v = .cons a d ∧ w = .cons b e ∧ A.relatesIn U a b ∧
      (F a).relatesIn U d e

/-- Which type values a code is the code of, for a given reading of the universe. -/
def denotesIn (U : Value → Value → Prop) : Code → Value → Prop
  | univ => fun T => T = .univ
  | nat => fun T => T = .nat
  | atom => fun T => T = .const .atom
  | trivial => fun T => T = .const .trivial
  | absurd => fun T => T = .const .absurd
  | list A => fun T => ∃ e, T = .list e ∧ A.denotesIn U e
  | vec A n => fun T => ∃ e, T = .vec e n ∧ n.IsNumeral ∧ A.denotesIn U e
  | either A B => fun T => ∃ l r, T = .either l r ∧ A.denotesIn U l ∧ B.denotesIn U r
  | equal A l r => fun T =>
    ∃ s l' r', T = .equal s l' r' ∧ A.denotesIn U s ∧ A.relatesIn U l' l ∧ A.relatesIn U r' r
  | quant q A F => fun T => ∃ x base family, T = .quant q x base family ∧ A.denotesIn U base ∧
    ∀ a b, A.relatesIn U a b → ∃ B B', family.Runs a B ∧ family.Runs b B' ∧
    (F a).denotesIn U B ∧ (F a).denotesIn U B'

/-- A code without the universe inside. -/
def Small : Code → Prop
  | univ => False
  | nat | atom | trivial | absurd => True
  | list A | vec A _ | equal A _ _ => A.Small
  | either A B => A.Small ∧ B.Small
  | quant _ A F => A.Small ∧ ∀ a, (F a).Small

/-- The reading of the universe does not matter to a small code. -/
theorem Small.relatesIn_eq {S : Code} (h : S.Small) (U U' : Value → Value → Prop) :
    S.relatesIn U = S.relatesIn U' := by
  induction S with
  | univ => exact h.elim
  | nat | atom | trivial | absurd => rfl
  | list A ih | vec A n ih | equal A l r ih => rw [relatesIn, relatesIn, ih h]
  | either A B ihA ihB => rw [relatesIn, relatesIn, ihA h.1, ihB h.2]
  | quant q A F ihA ihF =>
    have hF : ∀ a, (F a).relatesIn U = (F a).relatesIn U' := fun a => ihF a (h.2 a)
    cases q <;> simp only [relatesIn, ihA h.1, hF]

theorem Small.denotesIn_eq {S : Code} (h : S.Small) (U U' : Value → Value → Prop) :
    S.denotesIn U = S.denotesIn U' := by
  induction S with
  | univ => exact h.elim
  | nat | atom | trivial | absurd => rfl
  | list A ih | vec A n ih => simp only [denotesIn, ih h]
  | equal A l r ih => simp only [denotesIn, ih h, Small.relatesIn_eq (S := A) h U U']
  | either A B ihA ihB => simp only [denotesIn, ihA h.1, ihB h.2]
  | quant q A F ihA ihF =>
    have hF : ∀ a, (F a).denotesIn U = (F a).denotesIn U' := fun a => ihF a (h.2 a)
    simp only [denotesIn, ihA h.1, hF, Small.relatesIn_eq h.1 U U']

/-! ### The code of a type value with a given head -/

variable {U : Value → Value → Prop} {S : Code}

theorem eq_of_denotesIn_const {c : Const} (h : S.denotesIn U (.const c)) (S' : Code)
    (h' : S'.denotesIn U (.const c)) :
    S = S' := by
  cases S <;> simp [denotesIn] at h <;> subst h <;> cases S' <;> simp [denotesIn] at h' <;> rfl

theorem of_denotesIn_list {e : Value} (h : S.denotesIn U (.list e)) :
    ∃ A, S = .list A ∧ A.denotesIn U e := by
  cases S <;> simp only [denotesIn, reduceCtorEq, false_and, exists_false] at h
  obtain ⟨_, ⟨rfl⟩, h⟩ := h
  exact ⟨_, rfl, h⟩

theorem of_denotesIn_vec {e l : Value} (h : S.denotesIn U (.vec e l)) :
    ∃ A, S = .vec A l ∧ l.IsNumeral ∧ A.denotesIn U e := by
  cases S <;> simp only [denotesIn, Value.binary.injEq, reduceCtorEq, true_and, false_and,
    exists_false] at h
  obtain ⟨_, ⟨rfl, rfl⟩, h⟩ := h
  exact ⟨_, rfl, h⟩

theorem of_denotesIn_either {l r : Value} (h : S.denotesIn U (.either l r)) :
    ∃ A B, S = .either A B ∧ A.denotesIn U l ∧ B.denotesIn U r := by
  cases S <;> simp only [denotesIn, Value.binary.injEq, reduceCtorEq, true_and, false_and,
    exists_false] at h
  obtain ⟨_, _, ⟨rfl, rfl⟩, h⟩ := h
  exact ⟨_, _, rfl, h⟩

theorem of_denotesIn_equal {s l r : Value} (h : S.denotesIn U (.equal s l r)) :
    ∃ A l' r', S = .equal A l' r' ∧ A.denotesIn U s ∧ A.relatesIn U l l' ∧
    A.relatesIn U r r' := by
  cases S <;> simp only [denotesIn, reduceCtorEq, false_and, exists_false] at h
  obtain ⟨_, _, _, ⟨rfl, rfl, rfl⟩, h⟩ := h
  exact ⟨_, _, _, rfl, h⟩

theorem of_denotesIn_quant {q : Quantifier} {x : String} {base : Value} {family : Closure}
    (h : S.denotesIn U (.quant q x base family)) : ∃ A F, S = .quant q A F ∧
      A.denotesIn U base ∧
      ∀ a b, A.relatesIn U a b →
        ∃ B B', family.Runs a B ∧ family.Runs b B' ∧ (F a).denotesIn U B ∧
        (F a).denotesIn U B' := by
  cases S <;> simp only [denotesIn, reduceCtorEq, false_and, exists_false] at h
  obtain ⟨_, _, _, ⟨rfl, rfl, rfl, rfl⟩, h⟩ := h
  exact ⟨_, _, rfl, h⟩

/-! ### Equality of elements -/

/-- Symmetric and transitive. What is related to anything is then related to itself. -/
structure PartialEquivalence (R : Value → Value → Prop) : Prop where
  symm : ∀ {v w}, R v w → R w v
  trans : ∀ {u v w}, R u v → R v w → R u w

namespace PartialEquivalence

variable {R R' : Value → Value → Prop}

theorem left (h : PartialEquivalence R) {v w : Value} (hv : R v w) : R v v :=
  h.trans hv (h.symm hv)

theorem right (h : PartialEquivalence R) {v w : Value} (hv : R v w) : R w w :=
  h.trans (h.symm hv) hv

theorem lists (h : PartialEquivalence R) : PartialEquivalence (Value.ListsRelated R) where
  symm hv := by
    induction hv with
    | nil => exact .nil
    | cons h' _ ih => exact .cons (h.symm h') ih
  trans {u v w} hu hv := by
    induction hu generalizing w with
    | nil => exact hv
    | cons h' _ ih =>
      cases hv with
      | cons h'' hs => exact .cons (h.trans h' h'') (ih hs)

theorem vecs (h : PartialEquivalence R) (n : Value) :
    PartialEquivalence (Value.VecsRelated R n) where
  symm hv := by
    induction hv with
    | nil => exact .nil
    | cons h' _ ih => exact .cons (h.symm h') ih
  trans {u v w} hu hv := by
    induction hu generalizing w with
    | nil => exact hv
    | cons h' _ ih =>
      cases hv with
      | cons h'' hs => exact .cons (h.trans h' h'') (ih hs)

theorem sums (h : PartialEquivalence R) (h' : PartialEquivalence R') :
    PartialEquivalence (Value.SumsRelated R R') where
  symm hv := by
    cases hv with
    | left hv => exact .left (h.symm hv)
    | right hv => exact .right (h'.symm hv)
  trans hu hv := by
    cases hu with
    | left hu => cases hv with
      | left hv => exact .left (h.trans hu hv)
    | right hu => cases hv with
      | right hv => exact .right (h'.trans hu hv)

end PartialEquivalence

/-- A code of a type value is as good as any other code of it. -/
def DeterminedIn (U : Value → Value → Prop) (S : Code) (T : Value) : Prop :=
  PartialEquivalence (S.relatesIn U) ∧
    ∀ S' : Code, S'.denotesIn U T → S.relatesIn U = S'.relatesIn U ∧
    S.denotesIn U = S'.denotesIn U

/-- Functions that take equal arguments to equal results. The codes of the results at equal
arguments are codes of the same type. -/
theorem partialEquivalence_pi {A : Code} {F : Value → Code}
    (hA : PartialEquivalence (A.relatesIn U))
    (hF : ∀ a b, A.relatesIn U a b → PartialEquivalence ((F a).relatesIn U) ∧
      (F a).relatesIn U = (F b).relatesIn U) :
      PartialEquivalence ((quant .pi A F).relatesIn U) where
  symm hv a b hab := by
    obtain ⟨r, s, hr, hs, hrs⟩ := hv b a (hA.symm hab)
    have hFb := hF b a (hA.symm hab)
    exact ⟨s, r, hs, hr, hFb.2 ▸ hFb.1.symm hrs⟩
  trans hu hv a b hab := by
    obtain ⟨r, s, hr, hs, hrs⟩ := hu a a (hA.left hab)
    obtain ⟨r', s', hr', hs', hrs'⟩ := hv a b hab
    rw [hs.unique hr'] at hrs
    exact ⟨r, s', hr, hs', (hF a b hab).1.trans hrs hrs'⟩

theorem partialEquivalence_sigma {A : Code} {F : Value → Code}
    (hA : PartialEquivalence (A.relatesIn U))
    (hF : ∀ a b, A.relatesIn U a b → PartialEquivalence ((F a).relatesIn U) ∧
      (F a).relatesIn U = (F b).relatesIn U) :
      PartialEquivalence ((quant .sigma A F).relatesIn U) where
  symm := by
    rintro _ _ ⟨a, d, b, e, rfl, rfl, hab, hde⟩
    have hFa := hF a b hab
    exact ⟨b, e, a, d, rfl, rfl, hA.symm hab, hFa.2 ▸ hFa.1.symm hde⟩
  trans := by
    rintro _ _ _ ⟨a, d, b, e, rfl, rfl, hab, hde⟩ ⟨_, _, c, f, h, rfl, hbc, hef⟩
    cases h
    have hFa := hF a b hab
    rw [← hFa.2] at hef
    exact ⟨a, d, c, f, rfl, rfl, hA.trans hab hbc, hFa.1.trans hde hef⟩

theorem determinedIn_quant {q : Quantifier} {A : Code} {F : Value → Code}
    (ihA : ∀ T, A.denotesIn U T → A.DeterminedIn U T)
    (ihF : ∀ a T, (F a).denotesIn U T → (F a).DeterminedIn U T) {T : Value}
    (h : (quant q A F).denotesIn U T) : (quant q A F).DeterminedIn U T := by
  obtain ⟨x, base, family, rfl, hbase, hfamily⟩ := h
  obtain ⟨hA, hAunique⟩ := ihA base hbase
  constructor
  · have hF : ∀ a b, A.relatesIn U a b → PartialEquivalence ((F a).relatesIn U) ∧
        (F a).relatesIn U = (F b).relatesIn U := by
      intro a b hab
      obtain ⟨_, B, _, hB, _, hBa⟩ := hfamily a b hab
      obtain ⟨B', _, hB', _, hBb, _⟩ := hfamily b b (hA.right hab)
      obtain rfl := Settles.unique hB hB'
      have hFa := ihF a B hBa
      exact ⟨hFa.1, (hFa.2 (F b) hBb).1⟩
    cases q with
    | pi => exact partialEquivalence_pi hA hF
    | sigma => exact partialEquivalence_sigma hA hF
  · intro S' h'
    obtain ⟨A', F', rfl, hbase', hfamily'⟩ := of_denotesIn_quant h'
    obtain ⟨hrelates, hdenotes⟩ := hAunique A' hbase'
    have hF : ∀ a b, A.relatesIn U a b →
        (F a).relatesIn U = (F' a).relatesIn U ∧ (F a).denotesIn U = (F' a).denotesIn U := by
      intro a b hab
      obtain ⟨B, _, hB, _, hBF, _⟩ := hfamily a b hab
      obtain ⟨B', _, hB', _, hBF', _⟩ := hfamily' a b (hrelates ▸ hab)
      obtain rfl := Settles.unique hB hB'
      exact (ihF a B hBF).2 (F' a) hBF'
    constructor
    · cases q with
      | pi =>
        funext f g
        simp only [relatesIn, ← hrelates]
        refine propext (forall_congr' fun a => forall_congr' fun b =>
          forall_congr' fun hab => ?_)
        rw [(hF a b hab).1]
      | sigma =>
        funext v w
        simp only [relatesIn, ← hrelates]
        refine propext (exists_congr fun a => exists_congr fun d => exists_congr fun b =>
          exists_congr fun e => ?_)
        refine and_congr_right fun _ => and_congr_right fun _ => and_congr_right fun hab => ?_
        rw [(hF a b hab).1]
    · funext T
      simp only [denotesIn, ← hrelates, ← hdenotes]
      refine propext (exists_congr fun x => exists_congr fun base =>
        exists_congr fun family => ?_)
      refine and_congr_right fun _ => and_congr_right fun _ => ?_
      refine forall_congr' fun a => forall_congr' fun b => forall_congr' fun hab => ?_
      rw [(hF a b hab).2]

theorem determinedIn (hU : PartialEquivalence U) (S : Code) (T : Value) (h : S.denotesIn U T) :
    S.DeterminedIn U T := by
  induction S generalizing T with
  | univ =>
    have hT : T = _ := h
    subst hT
    exact ⟨hU, fun S' h' => eq_of_denotesIn_const h S' h' ▸ ⟨rfl, rfl⟩⟩
  | nat =>
    have hT : T = _ := h
    subst hT
    refine ⟨⟨?_, ?_⟩, fun S' h' => eq_of_denotesIn_const h S' h' ▸ ⟨rfl, rfl⟩⟩
    · rintro _ _ ⟨rfl, h⟩
      exact ⟨rfl, h⟩
    · rintro _ _ _ ⟨rfl, h⟩ h'
      exact h'
  | atom =>
    have hT : T = _ := h
    subst hT
    refine ⟨⟨?_, ?_⟩, fun S' h' => eq_of_denotesIn_const h S' h' ▸ ⟨rfl, rfl⟩⟩
    · rintro _ _ ⟨a, rfl, rfl⟩
      exact ⟨a, rfl, rfl⟩
    · rintro _ _ _ ⟨a, rfl, rfl⟩ ⟨b, hb, rfl⟩
      exact ⟨a, rfl, hb.symm⟩
  | trivial =>
    have hT : T = _ := h
    subst hT
    exact ⟨⟨fun h => ⟨h.2, h.1⟩, fun h h' => ⟨h.1, h'.2⟩⟩, fun S' h' =>
      eq_of_denotesIn_const h S' h' ▸ ⟨rfl, rfl⟩⟩
  | absurd =>
    have hT : T = _ := h
    subst hT
    exact ⟨⟨fun h => h, fun h _ => h⟩, fun S' h' => eq_of_denotesIn_const h S' h' ▸ ⟨rfl, rfl⟩⟩
  | list A ih =>
    obtain ⟨e, rfl, he⟩ := h
    obtain ⟨hA, hunique⟩ := ih e he
    refine ⟨hA.lists, fun S' h' => ?_⟩
    obtain ⟨A', rfl, he'⟩ := of_denotesIn_list h'
    obtain ⟨hrelates, hdenotes⟩ := hunique A' he'
    simp only [relatesIn, denotesIn, hrelates, hdenotes, and_self]
  | vec A n ih =>
    obtain ⟨e, rfl, _, he⟩ := h
    obtain ⟨hA, hunique⟩ := ih e he
    refine ⟨hA.vecs n, fun S' h' => ?_⟩
    obtain ⟨A', rfl, _, he'⟩ := of_denotesIn_vec h'
    obtain ⟨hrelates, hdenotes⟩ := hunique A' he'
    simp only [relatesIn, denotesIn, hrelates, hdenotes, and_self]
  | either A B ihA ihB =>
    obtain ⟨l, r, rfl, hl, hr⟩ := h
    obtain ⟨hA, huniqueA⟩ := ihA l hl
    obtain ⟨hB, huniqueB⟩ := ihB r hr
    refine ⟨hA.sums hB, fun S' h' => ?_⟩
    obtain ⟨A', B', rfl, hl', hr'⟩ := of_denotesIn_either h'
    obtain ⟨hrelates, hdenotes⟩ := huniqueA A' hl'
    obtain ⟨hrelates', hdenotes'⟩ := huniqueB B' hr'
    simp only [relatesIn, denotesIn, hrelates, hdenotes, hrelates', hdenotes', and_self]
  | equal A l r ih =>
    obtain ⟨s, l₀, r₀, rfl, hs, hl₀, hr₀⟩ := h
    obtain ⟨hA, hunique⟩ := ih s hs
    constructor
    · refine ⟨?_, ?_⟩
      · rintro _ _ ⟨p, q, rfl, rfl, hp, hq, hlr⟩
        exact ⟨q, p, rfl, rfl, hq, hp, hlr⟩
      · rintro _ _ _ ⟨p, q, rfl, rfl, hp, hq, hlr⟩ ⟨_, q', _, rfl, _, hq', _⟩
        exact ⟨p, q', rfl, rfl, hp, hq', hlr⟩
    · intro S' h'
      obtain ⟨A', l', r', rfl, hs', hl', hr'⟩ := of_denotesIn_equal h'
      obtain ⟨hrelates, hdenotes⟩ := hunique A' hs'
      rw [← hrelates] at hl' hr'
      have hl : A.relatesIn U l l' := hA.trans (hA.symm hl₀) hl'
      have hr : A.relatesIn U r r' := hA.trans (hA.symm hr₀) hr'
      have hiff : ∀ {v w u}, A.relatesIn U w u → (A.relatesIn U v w ↔ A.relatesIn U v u) :=
        fun h => ⟨fun hv => hA.trans hv h, fun hv => hA.trans hv (hA.symm h)⟩
      have hiff' : A.relatesIn U l r ↔ A.relatesIn U l' r' :=
        ⟨fun h => hA.trans (hA.symm hl) (hA.trans h hr), fun h =>
          hA.trans hl (hA.trans h (hA.symm hr))⟩
      constructor
      · funext v w
        simp only [relatesIn, ← hrelates, hiff hl, hiff']
      · funext T
        simp only [denotesIn, ← hrelates, ← hdenotes, hiff hl, hiff hr]
  | quant q A F ihA ihF => exact determinedIn_quant ihA ihF h

end Reading

/-! ## The universe -/

/-- Types are equal elements of the universe if they have a small code in common. -/
def EqualTypes (T T' : Value) : Prop :=
  ∃ S : Code, S.Small ∧ S.denotesIn (fun _ _ => False) T ∧ S.denotesIn (fun _ _ => False) T'

theorem partialEquivalence_equalTypes : PartialEquivalence EqualTypes where
  symm := fun ⟨S, hS, h, h'⟩ => ⟨S, hS, h', h⟩
  trans := by
    rintro T T' T'' ⟨S, hS, hT, hT'⟩ ⟨S', _, hT₁, hT''⟩
    have hempty : PartialEquivalence fun _ _ => False := ⟨fun h => h, fun h _ => h⟩
    have hdenotes := ((determinedIn hempty S T' hT').2 S' hT₁).2
    exact ⟨S, hS, hT, hdenotes ▸ hT''⟩

/-- When two closed values are equal elements of a type. -/
def Relates (S : Code) (v w : Value) : Prop := S.relatesIn EqualTypes v w

/-- Which type values a code is the code of. -/
def Denotes (S : Code) (T : Value) : Prop := S.denotesIn EqualTypes T

theorem relates_univ_iff {T T' : Value} : univ.Relates T T' ↔ ∃ S : Code, S.Small ∧
    S.Denotes T ∧ S.Denotes T' := by
  refine exists_congr fun S => and_congr_right fun hS => ?_
  rw [Denotes, Denotes, hS.denotesIn_eq EqualTypes]

section Determined

variable {S S' : Code} {T u v w : Value}

theorem Denotes.determined (h : S.Denotes T) : S.DeterminedIn EqualTypes T :=
  determinedIn partialEquivalence_equalTypes S T h

theorem Denotes.equivalence (h : S.Denotes T) : PartialEquivalence S.Relates := h.determined.1

theorem Denotes.relates_eq (h : S.Denotes T) (h' : S'.Denotes T) : S.Relates = S'.Relates :=
  (h.determined.2 S' h').1

theorem Denotes.denotes_eq (h : S.Denotes T) (h' : S'.Denotes T) : S.Denotes = S'.Denotes :=
  (h.determined.2 S' h').2

/-- Two codes of one type. -/
def Agree (S S' : Code) : Prop := ∃ T, S.Denotes T ∧ S'.Denotes T

theorem Agree.symm (h : S.Agree S') : S'.Agree S := h.imp fun _ h => h.symm

theorem Agree.relates (h : S.Agree S') (hv : S.Relates v w) : S'.Relates v w := by
  obtain ⟨T, hT, hT'⟩ := h
  exact hT.relates_eq hT' ▸ hv

theorem Agree.denotes (h : S.Agree S') (hu : S.Denotes u) : S'.Denotes u := by
  obtain ⟨T, hT, hT'⟩ := h
  exact hT.denotes_eq hT' ▸ hu

/-- The code of some type. -/
def Denoted (S : Code) : Prop := ∃ T, S.Denotes T

theorem Denoted.equivalence (h : S.Denoted) : PartialEquivalence S.Relates := by
  obtain ⟨T, hT⟩ := h
  exact hT.equivalence

theorem Denoted.agree (h : S.Denoted) : S.Agree S := h.imp fun _ h => ⟨h, h⟩

theorem Agree.left (h : S.Agree S') : S.Denoted := h.imp fun _ h => h.1

theorem Agree.right (h : S.Agree S') : S'.Denoted := h.symm.left

end Determined

/-! ## Codes that have a type, by their form -/

section Denoted

variable {A B : Code} {l r n : Value} {q : Quantifier} {F : Value → Code}

theorem denoted_univ : univ.Denoted := ⟨_, rfl⟩

theorem denoted_nat : nat.Denoted := ⟨_, rfl⟩

theorem denoted_atom : atom.Denoted := ⟨_, rfl⟩

theorem denoted_trivial : trivial.Denoted := ⟨_, rfl⟩

theorem denoted_list (h : A.Denoted) : (list A).Denoted := by
  obtain ⟨T, hT⟩ := h
  exact ⟨_, T, rfl, hT⟩

theorem denoted_vec (h : A.Denoted) (hn : n.IsNumeral) : (vec A n).Denoted := by
  obtain ⟨T, hT⟩ := h
  exact ⟨_, T, rfl, hn, hT⟩

theorem denoted_either (hA : A.Denoted) (hB : B.Denoted) : (either A B).Denoted := by
  obtain ⟨T, hT⟩ := hA
  obtain ⟨T', hT'⟩ := hB
  exact ⟨_, T, T', rfl, hT, hT'⟩

/-- The space and the sides of an equality may be replaced by equal ones. -/
theorem agree_equal_of_agree {l' r' : Value} (h : A.Agree B) (hl : A.Relates l l')
    (hr : A.Relates r r') :
    (equal A l r).Agree (equal B l' r') := by
  have hl' := h.relates hl
  have hr' := h.relates hr
  obtain ⟨T, hA, hB⟩ := h
  exact ⟨.equal T l r, ⟨T, l, r, rfl, hA, hA.equivalence.left hl, hA.equivalence.left hr⟩, T, l,
    r, rfl, hB, hl', hr'⟩

theorem agree_equal {l' r' : Value} (h : A.Denoted) (hl : A.Relates l l')
    (hr : A.Relates r r') :
    (equal A l r).Agree (equal A l' r') :=
  agree_equal_of_agree h.agree hl hr

theorem denotes_arrow {T T' : Value} (x : String) (hA : A.Denotes T) (hB : B.Denotes T') :
    (arrow A B).Denotes (.arrow x T T') :=
  ⟨x, T, .constant T', rfl, hA, fun a b _ => ⟨T', T', .constant a T', .constant b T', hB, hB⟩⟩

theorem denoted_arrow (hA : A.Denoted) (hB : B.Denoted) : (arrow A B).Denoted := by
  obtain ⟨T, hT⟩ := hA
  obtain ⟨T', hT'⟩ := hB
  exact ⟨_, denotes_arrow "x" hT hT'⟩

theorem Denoted.list_entry (h : (list A).Denoted) : A.Denoted := by
  obtain ⟨_, e, _, he⟩ := h
  exact ⟨e, he⟩

theorem Denoted.vec_entry (h : (vec A n).Denoted) : A.Denoted := by
  obtain ⟨_, e, _, _, he⟩ := h
  exact ⟨e, he⟩

theorem Denoted.vec_length (h : (vec A n).Denoted) : n.IsNumeral := by
  obtain ⟨_, _, _, hn, _⟩ := h
  exact hn

theorem Denoted.either_left (h : (either A B).Denoted) : A.Denoted := by
  obtain ⟨_, l, _, _, hl, _⟩ := h
  exact ⟨l, hl⟩

theorem Denoted.either_right (h : (either A B).Denoted) : B.Denoted := by
  obtain ⟨_, _, r, _, _, hr⟩ := h
  exact ⟨r, hr⟩

theorem Denoted.equal_space (h : (equal A l r).Denoted) : A.Denoted := by
  obtain ⟨_, s, _, _, _, hs, _⟩ := h
  exact ⟨s, hs⟩

theorem Denoted.base (h : (quant q A F).Denoted) : A.Denoted := by
  obtain ⟨_, _, base, _, _, hbase, _⟩ := h
  exact ⟨base, hbase⟩

/-- Equal values of the base give types that are equal. -/
theorem Denoted.family (h : (quant q A F).Denoted) {a b : Value} (hab : A.Relates a b) :
    (F a).Agree (F b) := by
  have hA := h.base.equivalence
  obtain ⟨_, _, base, family, _, _, hfamily⟩ := h
  obtain ⟨_, B, _, hB, _, hBa⟩ := hfamily a b hab
  obtain ⟨B', _, hB', _, hBb, _⟩ := hfamily b b (hA.right hab)
  obtain rfl := Settles.unique hB hB'
  exact ⟨B, hBa, hBb⟩

/-! A code that agrees with one of a given form has the same form. -/

variable {S : Code}

theorem Agree.of_list (h : (list A).Agree S) : ∃ A', S = list A' ∧ A.Agree A' := by
  obtain ⟨_, ⟨e, rfl, he⟩, hS⟩ := h
  obtain ⟨A', rfl, he'⟩ := of_denotesIn_list hS
  exact ⟨A', rfl, e, he, he'⟩

theorem Agree.of_vec (h : (vec A n).Agree S) : ∃ A', S = vec A' n ∧ A.Agree A' := by
  obtain ⟨_, ⟨e, rfl, _, he⟩, hS⟩ := h
  obtain ⟨A', rfl, _, he'⟩ := of_denotesIn_vec hS
  exact ⟨A', rfl, e, he, he'⟩

theorem Agree.of_either (h : (either A B).Agree S) : ∃ A' B', S = either A' B' ∧ A.Agree A' ∧
    B.Agree B' := by
  obtain ⟨_, ⟨l, r, rfl, hl, hr⟩, hS⟩ := h
  obtain ⟨A', B', rfl, hl', hr'⟩ := of_denotesIn_either hS
  exact ⟨A', B', rfl, ⟨l, hl, hl'⟩, r, hr, hr'⟩

theorem Agree.of_equal (h : (equal A l r).Agree S) :
    ∃ A' l' r', S = equal A' l' r' ∧ A.Agree A' ∧ A.Relates l l' ∧ A.Relates r r' := by
  obtain ⟨_, ⟨s, p, q, rfl, hs, hp, hq⟩, hS⟩ := h
  obtain ⟨A', l', r', rfl, hs', hp', hq'⟩ := of_denotesIn_equal hS
  have hA : A.Agree A' := ⟨s, hs, hs'⟩
  have hE := hA.left.equivalence
  exact ⟨A', l', r', rfl, hA, hE.trans (hE.symm hp) (hA.symm.relates hp'),
    hE.trans (hE.symm hq) (hA.symm.relates hq')⟩

theorem Agree.of_quant (h : (quant q A F).Agree S) :
    ∃ A' F', S = quant q A' F' ∧ A.Agree A' ∧ ∀ a, A.Relates a a → (F a).Agree (F' a) := by
  obtain ⟨_, ⟨x, base, family, rfl, hbase, hfamily⟩, hS⟩ := h
  obtain ⟨A', F', rfl, hbase', hfamily'⟩ := of_denotesIn_quant hS
  have hA : A.Agree A' := ⟨base, hbase, hbase'⟩
  refine ⟨A', F', rfl, hA, fun a ha => ?_⟩
  obtain ⟨T, _, hT, _, hFT, _⟩ := hfamily a a ha
  obtain ⟨T', _, hT', _, hFT', _⟩ := hfamily' a a (hA.relates ha)
  obtain rfl := Settles.unique hT hT'
  exact ⟨T, hFT, hFT'⟩

end Denoted

/-! ## Families and steps -/

/-- A family of codes for the types that a closed motive gives. -/
def Motive (m : Value) (A : Code) (P : Value → Code) : Prop :=
  ∀ a b, A.Relates a b → ∃ T T', m.Applies a T ∧ m.Applies b T' ∧ (P a).Denotes T ∧
    (P a).Denotes T'

theorem Motive.agree {m : Value} {A : Code} {P : Value → Code} (h : Motive m A P)
    (hA : A.Denoted) {a b : Value} (hab : A.Relates a b) : (P a).Agree (P b) := by
  obtain ⟨_, T, _, hT, _, hTa⟩ := h a b hab
  obtain ⟨T', _, hT', _, hTb, _⟩ := h b b (hA.equivalence.right hab)
  obtain rfl := hT.unique hT'
  exact ⟨T, hTa, hTb⟩

/-- The same for a motive over lists of every length. -/
def VecMotive (m : Value) (A : Code) (P : Value → Value → Code) : Prop :=
  ∀ n, n.IsNumeral → ∃ f, m.Applies n f ∧ Motive f (vec A n) (P n)

/-- The code of the step of an induction over numbers. -/
def natStep (P : Value → Code) : Code := quant .pi nat fun n => arrow (P n) (P (.add1 n))

/-- The code of the step of an induction over lists. -/
def listStep (A : Code) (P : Value → Code) : Code :=
  quant .pi A fun a => quant .pi (list A) fun as => arrow (P as) (P (.listCons a as))

/-- The code of the step of an induction over lists of known length. -/
def vecStep (A : Code) (P : Value → Value → Code) : Code :=
  quant .pi nat fun n => quant .pi A fun a => quant .pi (vec A n) fun as =>
    arrow (P n as) (P (.add1 n) (.vecCons a as))

section Families

variable {m : Value} {A B : Code} {P : Value → Code}

/-- A closed motive has a family of codes. -/
theorem exists_motive (hA : A.Denoted) (hm : (arrow A univ).Relates m m) :
    ∃ P, Motive m A P := by
  have hcode : ∀ a, ∃ S : Code, ∀ T, A.Relates a a → m.Applies a T → S.Denotes T := by
    intro a
    by_cases ha : A.Relates a a
    · obtain ⟨T, _, hT, -, h⟩ := hm a a ha
      obtain ⟨S, -, hS, -⟩ := relates_univ_iff.1 h
      exact ⟨S, fun T' _ hT' => hT.unique hT' ▸ hS⟩
    · exact ⟨nat, fun _ h => (ha h).elim⟩
  obtain ⟨P, hP⟩ := Classical.skolem.1 hcode
  refine ⟨P, fun a b hab => ?_⟩
  obtain ⟨T, T', hT, hT', h⟩ := hm a b hab
  obtain ⟨S, -, hS, hS'⟩ := relates_univ_iff.1 h
  have hPa := hP a T (hA.equivalence.left hab) hT
  exact ⟨T, T', hT, hT', hPa, hS.denotes_eq hPa ▸ hS'⟩

/-- A closed motive over lists of every length has a family of codes. -/
theorem exists_vecMotive (hA : A.Denoted)
    (hm : (quant .pi nat fun k => arrow (vec A k) univ).Relates m m) :
    ∃ P, VecMotive m A P := by
  have hmotive : ∀ n, ∃ P, n.IsNumeral → ∃ f, m.Applies n f ∧ Motive f (vec A n) P := by
    intro n
    by_cases hn : n.IsNumeral
    · obtain ⟨f, f', hf, hf', h⟩ := hm n n ⟨rfl, hn⟩
      obtain rfl := hf.unique hf'
      obtain ⟨P, hP⟩ := exists_motive (denoted_vec hA hn) h
      exact ⟨P, fun _ => ⟨f, hf, hP⟩⟩
    · exact ⟨fun _ => nat, fun h => (hn h).elim⟩
  obtain ⟨P, hP⟩ := Classical.skolem.1 hmotive
  exact ⟨P, hP⟩

/-! The types of motives, steps and methods. -/

theorem denoted_eqMotive {l : Value} (hA : A.Denoted) (hl : A.Relates l l) :
    (quant .pi A fun b => arrow (equal A l b) univ).Denoted := by
  obtain ⟨e, he⟩ := hA
  have hdenotes : ∀ {a b}, A.Relates b a →
      (arrow (equal A l a) univ).Denotes (.arrow "p" (.equal e l b) .univ) :=
    fun h => denotes_arrow "p" ⟨e, l, _, rfl, he, hl, h⟩ rfl
  refine ⟨.indEqMotiveType e l, "to", e, .indEqMotive e l, rfl, he, fun a b hab => ?_⟩
  have hE := he.equivalence
  exact ⟨_, _, .indEqMotive e l a, .indEqMotive e l b, hdenotes (hE.left hab),
    hdenotes (hE.symm hab)⟩

theorem denoted_vecMotive (hA : A.Denoted) :
    (quant .pi nat fun k => arrow (vec A k) univ).Denoted := by
  obtain ⟨e, he⟩ := hA
  refine ⟨.indVecMotiveType e, "k", .nat, .indVecMotive e, rfl, rfl, ?_⟩
  rintro n _ ⟨rfl, hn⟩
  have hdenotes : (arrow (vec A n) univ).Denotes (.arrow "es" (.vec e n) .univ) :=
    denotes_arrow "es" ⟨e, rfl, hn, he⟩ rfl
  exact ⟨_, _, .indVecMotive e n, .indVecMotive e n, hdenotes, hdenotes⟩

theorem denoted_natStep (hP : Motive m nat P) : (natStep P).Denoted := by
  refine ⟨.indNatStepType m, "n-1", .nat, .indNatStep m, rfl, rfl, ?_⟩
  rintro n _ ⟨rfl, hn⟩
  obtain ⟨T, _, hT, _, hPT, -⟩ := hP n n ⟨rfl, hn⟩
  obtain ⟨T', _, hT', _, hPT', -⟩ := hP (.add1 n) (.add1 n) ⟨rfl, .add1 hn⟩
  have hdenotes := denotes_arrow "ih" hPT hPT'
  exact ⟨_, _, .indNatStep hT hT', .indNatStep hT hT', hdenotes, hdenotes⟩

theorem denoted_listStep (hA : A.Denoted) (hP : Motive m (list A) P) :
    (listStep A P).Denoted := by
  obtain ⟨e, he⟩ := hA
  have hE := he.equivalence
  -- At equal heads and tails the step has the same type.
  have htail : ∀ {a b}, A.Relates a b →
      (quant .pi (list A) fun as => arrow (P as) (P (.listCons a as))).Denotes
      (.pi "es" (.list e) (.indListStepTail m b)) := by
    intro a b hab
    refine ⟨"es", _, _, rfl, ⟨e, rfl, he⟩, fun as bs has => ?_⟩
    have hleft : (list A).Relates as as := hE.lists.left has
    obtain ⟨T, T', hT, hT', hPT, hPT'⟩ := hP as bs has
    obtain ⟨_, R, -, hR, -, hPR⟩ := hP (.listCons a as) (.listCons b as) (.cons hab hleft)
    obtain ⟨_, R', -, hR', -, hPR'⟩ := hP (.listCons a as) (.listCons b bs) (.cons hab has)
    exact ⟨_, _, .indListStepTail hT hR, .indListStepTail hT' hR', denotes_arrow "ih" hPT hPR,
      denotes_arrow "ih" hPT' hPR'⟩
  refine ⟨.indListStepType e m, "e", e, .indListStep e m, rfl, he, fun a b hab => ?_⟩
  exact ⟨_, _, .indListStep e m a, .indListStep e m b, htail (hE.left hab), htail hab⟩

theorem denoted_vecStep {P : Value → Value → Code} (hA : A.Denoted) (hP : VecMotive m A P) :
    (vecStep A P).Denoted := by
  obtain ⟨e, he⟩ := hA
  have hE := he.equivalence
  have htail : ∀ {n a b}, n.IsNumeral → A.Relates a b →
      (quant .pi (vec A n) fun as => arrow (P n as) (P (.add1 n) (.vecCons a as))).Denotes
        (.pi "es" (.vec e n) (.indVecStepTail m n b)) := by
    intro n a b hn hab
    refine ⟨"es", _, _, rfl, ⟨e, rfl, hn, he⟩, fun as bs has => ?_⟩
    have hleft : (vec A n).Relates as as := (hE.vecs n).left has
    obtain ⟨f, hf, hmotive⟩ := hP n hn
    obtain ⟨g, hg, hmotive'⟩ := hP (.add1 n) (.add1 hn)
    obtain ⟨T, T', hT, hT', hPT, hPT'⟩ := hmotive as bs has
    obtain ⟨_, R, -, hR, -, hPR⟩ := hmotive' (.vecCons a as) (.vecCons b as) (.cons hab hleft)
    obtain ⟨_, R', -, hR', -, hPR'⟩ := hmotive' (.vecCons a as) (.vecCons b bs) (.cons hab has)
    exact ⟨_, _, .indVecStepTail hf hT hg hR, .indVecStepTail hf hT' hg hR',
      denotes_arrow "ih" hPT hPR, denotes_arrow "ih" hPT' hPR'⟩
  have hhead : ∀ {n}, n.IsNumeral →
      (quant .pi A fun a => quant .pi (vec A n) fun as =>
        arrow (P n as) (P (.add1 n) (.vecCons a as))).Denotes
          (.pi "e" e (.indVecStepHead e m n)) := by
    refine fun {n} hn => ⟨"e", _, _, rfl, he, fun a b hab => ?_⟩
    exact ⟨_, _, .indVecStepHead e m n a, .indVecStepHead e m n b, htail hn (hE.left hab),
      htail hn hab⟩
  refine ⟨.indVecStepType e m, "k", .nat, .indVecStep e m, rfl, rfl, ?_⟩
  rintro n _ ⟨rfl, hn⟩
  exact ⟨_, _, .indVecStep e m n, .indVecStep e m n, hhead hn, hhead hn⟩

/-- The type of a method for one side of a sum. -/
theorem denoted_indEitherMethod {S : Code} (side : Side) (hS : S.Denoted)
    (hP : Motive m (either A B) P)
    (hinject : ∀ {a b}, S.Relates a b →
      (either A B).Relates (.inject side a) (.inject side b)) :
    (quant .pi S fun a => P (.inject side a)).Denoted := by
  obtain ⟨e, he⟩ := hS
  refine ⟨.indEitherMethodType side e m, "x", e, .indEitherMethod side m, rfl, he,
    fun a b hab => ?_⟩
  obtain ⟨T, T', hT, hT', hPT, hPT'⟩ := hP _ _ (hinject hab)
  exact ⟨T, T', .indEitherMethod hT, .indEitherMethod hT', hPT, hPT'⟩

end Families

/-! ## Eliminators take equal operands to equal results -/

section Elimination

open Value

variable {A R : Code} {P : Value → Code} {b b' s s' n : Value}

theorem natCase_relates (hb : R.Relates b b') (hs : (arrow nat R).Relates s s')
    (hn : n.IsNumeral) :
    ∃ w w', NatCase b s n w ∧ NatCase b' s' n w' ∧ R.Relates w w' := by
  cases hn with
  | zero => exact ⟨b, b', .zero, .zero, hb⟩
  | add1 hn =>
    obtain ⟨w, w', hw, hw', hrelates⟩ := hs _ _ ⟨rfl, hn⟩
    exact ⟨w, w', .add1 hw, .add1 hw', hrelates⟩

theorem natIter_relates (hb : R.Relates b b') (hs : (arrow R R).Relates s s')
    (hn : n.IsNumeral) :
    ∃ w w', NatIter b s n w ∧ NatIter b' s' n w' ∧ R.Relates w w' := by
  induction hn with
  | zero => exact ⟨b, b', .zero, .zero, hb⟩
  | add1 _ ih =>
    obtain ⟨r, r', hr, hr', hrr'⟩ := ih
    obtain ⟨w, w', hw, hw', hrelates⟩ := hs _ _ hrr'
    exact ⟨w, w', .add1 hr hw, .add1 hr' hw', hrelates⟩

theorem natRec_relates (hb : (P .zero).Relates b b') (hs : (natStep P).Relates s s')
    (hn : n.IsNumeral) :
    ∃ w w', NatRec b s n w ∧ NatRec b' s' n w' ∧ (P n).Relates w w' := by
  induction hn with
  | zero => exact ⟨b, b', .zero, .zero, hb⟩
  | add1 hn ih =>
    obtain ⟨r, r', hr, hr', hrr'⟩ := ih
    obtain ⟨t, t', ht, ht', htt'⟩ := hs _ _ ⟨rfl, hn⟩
    obtain ⟨w, w', hw, hw', hrelates⟩ := htt' _ _ hrr'
    exact ⟨w, w', .add1 hr ht hw, .add1 hr' ht' hw', hrelates⟩

theorem listRec_relates (hb : (P (.const .nil)).Relates b b') (hs : (listStep A P).Relates s s')
    {as as' : Value} (has : (list A).Relates as as') : ∃ w w', ListRec b s as w ∧
    ListRec b' s' as' w' ∧ (P as).Relates w w' := by
  change ListsRelated A.Relates as as' at has
  induction has with
  | nil => exact ⟨b, b', .nil, .nil, hb⟩
  | cons ha has ih =>
    obtain ⟨r, r', hr, hr', hrr'⟩ := ih
    obtain ⟨t, t', ht, ht', htt'⟩ := hs _ _ ha
    obtain ⟨u, u', hu, hu', huu'⟩ := htt' _ _ has
    obtain ⟨w, w', hw, hw', hrelates⟩ := huu' _ _ hrr'
    exact ⟨w, w', .cons hr ht hu hw, .cons hr' ht' hu' hw', hrelates⟩

theorem sumCase_relates {B : Code} (hl : (quant .pi A fun a => P (.unary .left a)).Relates b b')
    (hr : (quant .pi B fun a => P (.unary .right a)).Relates s s') {e e' : Value}
    (he : (either A B).Relates e e') :
    ∃ w w', SumCase b s e w ∧ SumCase b' s' e' w' ∧ (P e).Relates w w' := by
  change SumsRelated A.Relates B.Relates e e' at he
  cases he with
  | left ha =>
    obtain ⟨w, w', hw, hw', hrelates⟩ := hl _ _ ha
    exact ⟨w, w', .left hw, .left hw', hrelates⟩
  | right ha =>
    obtain ⟨w, w', hw, hw', hrelates⟩ := hr _ _ ha
    exact ⟨w, w', .right hw, .right hw', hrelates⟩

theorem vecRec_relates {P : Value → Value → Code} (hb : (P .zero (.const .vecnil)).Relates b b')
    (hs : (vecStep A P).Relates s s') (hn : n.IsNumeral) {as as' : Value}
    (has : (vec A n).Relates as as') :
    ∃ w w', VecRec b s n as w ∧ VecRec b' s' n as' w' ∧ (P n as).Relates w w' := by
  change VecsRelated A.Relates n as as' at has
  induction has with
  | nil => exact ⟨b, b', .nil, .nil, hb⟩
  | cons ha has ih =>
    obtain _ | hn := hn
    obtain ⟨r, r', hr, hr', hrr'⟩ := ih hn
    obtain ⟨t, t', ht, ht', htt'⟩ := hs _ _ ⟨rfl, hn⟩
    obtain ⟨u, u', hu, hu', huu'⟩ := htt' _ _ ha
    obtain ⟨v, v', hv, hv', hvv'⟩ := huu' _ _ has
    obtain ⟨w, w', hw, hw', hrelates⟩ := hvv' _ _ hrr'
    exact ⟨w, w', .cons hr ht hu hv hw, .cons hr' ht' hu' hv' hw', hrelates⟩

/-! What an eliminator gives for elements is an element. -/

variable {w : Value}

theorem natCase_self (hb : R.Relates b b) (hs : (arrow nat R).Relates s s) (hn : n.IsNumeral)
    (hw : NatCase b s n w) :
    R.Relates w w := by
  obtain ⟨w₁, w₂, h₁, h₂, h⟩ := natCase_relates hb hs hn
  rwa [h₁.unique hw, h₂.unique hw] at h

theorem natIter_self (hb : R.Relates b b) (hs : (arrow R R).Relates s s) (hn : n.IsNumeral)
    (hw : NatIter b s n w) :
    R.Relates w w := by
  obtain ⟨w₁, w₂, h₁, h₂, h⟩ := natIter_relates hb hs hn
  rwa [h₁.unique hw, h₂.unique hw] at h

theorem natRec_self (hb : (P .zero).Relates b b) (hs : (natStep P).Relates s s)
    (hn : n.IsNumeral) (hw : NatRec b s n w) : (P n).Relates w w := by
  obtain ⟨w₁, w₂, h₁, h₂, h⟩ := natRec_relates hb hs hn
  rwa [h₁.unique hw, h₂.unique hw] at h

theorem listRec_self (hb : (P (.const .nil)).Relates b b) (hs : (listStep A P).Relates s s)
    {as : Value} (has : (list A).Relates as as) (hw : ListRec b s as w) :
    (P as).Relates w w := by
  obtain ⟨w₁, w₂, h₁, h₂, h⟩ := listRec_relates hb hs has
  rwa [h₁.unique hw, h₂.unique hw] at h

theorem sumCase_self {B : Code} (hl : (quant .pi A fun a => P (.unary .left a)).Relates b b)
    (hr : (quant .pi B fun a => P (.unary .right a)).Relates s s) {e : Value}
    (he : (either A B).Relates e e) (hw : SumCase b s e w) : (P e).Relates w w := by
  obtain ⟨w₁, w₂, h₁, h₂, h⟩ := sumCase_relates hl hr he
  rwa [h₁.unique hw, h₂.unique hw] at h

theorem vecRec_self {P : Value → Value → Code} (hb : (P .zero (.const .vecnil)).Relates b b)
    (hs : (vecStep A P).Relates s s) (hn : n.IsNumeral) {as : Value}
    (has : (vec A n).Relates as as) (hw : VecRec b s n as w) : (P n as).Relates w w := by
  obtain ⟨w₁, w₂, h₁, h₂, h⟩ := vecRec_relates hb hs hn has
  rwa [h₁.unique hw, h₂.unique hw] at h

end Elimination

end Code

end PieChecker
