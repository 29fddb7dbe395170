import Mathlib.Data.List.Forall2
import PieChecker.Proofs.Simulation.Values
import PieChecker.Value.ReadBack

set_option autoImplicit false

/-!
# Reading back values that are equal up to names

Read-back takes values that are equal up to names to terms that are. The two runs choose the
names of their binders on their own, each avoiding the names that are in use on its side, so a
comparison of read-backs is made in a *world*: the names in use on both sides, and which free
names stand for each other. Below a binder the world grows by the pair of names that the two
sides chose.
-/

namespace PieChecker

namespace Name

/-- No candidate that the search gives is to be avoided. -/
theorem search_not_mem {avoid : List String} {stem : List Char} {candidates n : Nat}
    {y : String} (h : search avoid stem candidates n = .ok y) : y ∉ avoid := by
  induction candidates generalizing n with
  | zero => cases h
  | succ candidates ih =>
    rw [search] at h
    split at h
    · split at h
      · exact ih h
      · cases h
        assumption
    · cases h

/-- A fresh name is not among those to be avoided. -/
theorem freshen_not_mem {avoid : List String} {suggestion y : String}
    (h : freshen avoid suggestion = .ok y) :
    y ∉ avoid := by
  rw [freshen] at h
  split at h
  · exact search_not_mem h
  · cases h
    assumption

/-- The search ends with a name or with no name left. -/
theorem search_stop {avoid : List String} {stem : List Char} {candidates n : Nat} {s : Stop}
    (h : search avoid stem candidates n = .error s) : s = .overflow := by
  induction candidates generalizing n with
  | zero =>
    cases h
    rfl
  | succ candidates ih =>
    rw [search] at h
    split at h
    · split at h
      · exact ih h
      · cases h
    · cases h
      rfl

theorem freshen_stop {avoid : List String} {suggestion : String} {s : Stop}
    (h : freshen avoid suggestion = .error s) :
    s = .overflow := by
  rw [freshen] at h
  split at h
  · exact search_stop h
  · cases h

end Name

/-- The names in use in two runs, and the free names that stand for each other. -/
structure World where
  left : List String
  right : List String
  var : NameRelation

/-- The world below a binder that the two runs give the names `y` and `z`. -/
def World.push (W : World) (y z : String) : World := ⟨y :: W.left, z :: W.right, W.var.push y z⟩

/-- The worlds that arise when two runs choose names for corresponding binders. -/
structure Worlds (K : Comparison) where
  admits : World → Prop
  /-- What stands for each other above a binder with new names still does so below it. -/
  var_push : ∀ {W y z}, admits W → y ∉ W.left → z ∉ W.right → admits (W.push y z) →
    ∀ a b, W.var a b → (W.push y z).var a b
  /-- A name stands for at most one other. -/
  biunique : ∀ {W a a' b b'}, admits W → W.var a b → W.var a' b' → (a = a' ↔ b = b')
  /-- New names lead to a world of the same kind. -/
  fresh : ∀ {W o o' a b}, admits W → List.Forall₂ K.binder o o' → K.binder a b →
    K.Outcomes (fun y z => K.binder y z ∧ y ∉ W.left ++ o ∧ z ∉ W.right ++ o' ∧
      admits (W.push y z)) (Name.freshen (W.left ++ o) a) (Name.freshen (W.right ++ o') b)

namespace Worlds

variable {K : Comparison} (𝒲 : Worlds K)

/-- The name that read-back gives a binder leads to a world of the same kind. -/
theorem fresh_name {W : World} (hW : 𝒲.admits W) {a b : String} (hab : K.binder a b) :
    K.Outcomes (fun y z => K.binder y z ∧ y ∉ W.left ∧ z ∉ W.right ∧ 𝒲.admits (W.push y z))
      (Name.freshen W.left a) (Name.freshen W.right b) := by
  have hnil : List.Forall₂ K.binder [] [] := .nil
  simpa only [List.append_nil] using 𝒲.fresh hW hnil hab

end Worlds

/-- Reads a value back at the type that is kept with it. -/
def Normal.readBack (strategy : Strategy) (fuel : Nat) (names : List String) :
    Normal → Outcome Core
  | ⟨ty, v⟩ => ty.readBack strategy fuel names v

namespace Likeness

variable {K : Comparison}

/-- Read-back with the given amounts of fuel takes what is equal up to names to related terms,
in all worlds. -/
structure Reads (𝒲 : Worlds K) (n m : Nat) : Prop where
  value : ∀ {W}, 𝒲.admits W → ∀ {T T' v w}, (renamed K W.var).value T T' →
    (renamed K W.var).value v w →
    K.Outcomes (Core.Related K W.var) (T.readBack K.left n W.left v)
      (T'.readBack K.right m W.right w)
  type : ∀ {W}, 𝒲.admits W → ∀ {T T'}, (renamed K W.var).value T T' →
    K.Outcomes (Core.Related K W.var) (T.readBackType K.left n W.left)
      (T'.readBackType K.right m W.right)
  neutral : ∀ {W}, 𝒲.admits W → ∀ {e e'}, (renamed K W.var).neutral e e' →
    K.Outcomes (Core.Related K W.var) (e.readBack K.left n W.left)
      (e'.readBack K.right m W.right)

namespace Reads

variable {𝒲 : Worlds K} {n m : Nat} (h : Reads 𝒲 n m) {W : World} (hW : 𝒲.admits W)

include h hW

theorem normal {a a' : Normal} (ha : (renamed K W.var).normal a a') :
    K.Outcomes (Core.Related K W.var) (a.readBack K.left n W.left)
      (a'.readBack K.right m W.right) := by
  cases a
  cases a'
  exact h.value hW ha.1 ha.2

/-- One step of reading a stuck elimination back. -/
theorem neutral_succ {e e' : Neutral} (hstuck : (renamed K W.var).neutral e e') :
    K.Outcomes (Core.Related K W.var) (e.readBack K.left (n + 1) W.left)
      (e'.readBack K.right (m + 1) W.right) := by
  cases renamed_below_rule.neutral hstuck with
  | var hx => exact Core.Related.var hx
  | todo hs hty => exact (h.type hW hty).bind fun t t' ht => .of_ok (Core.Related.todo hs ht)
  | eliminations hparts =>
    cases hparts with
    | project o he =>
      exact (h.neutral hW he).bind fun t t' ht => .of_ok (Core.Related.unary _ ht)
    | apply he ha =>
      exact (h.neutral hW he).bind fun t t' ht => (h.normal hW ha).bind fun a a' ha =>
        .of_ok (Core.Related.binary _ ht ha)
    | @recursor o _ _ base base' step step' he hbase hs =>
      obtain ⟨ty, base⟩ := base
      obtain ⟨ty', base'⟩ := base'
      exact (h.neutral hW he).bind fun t t' ht => (h.type hW hbase.1).bind fun p p' hp =>
        (h.normal hW hbase).bind fun b b' hb => (h.normal hW hs).bind fun s s' hs =>
          .of_ok (Core.Related.quaternary _ ht hp hb hs)
    | transport o he hm hbase =>
      exact (h.neutral hW he).bind fun t t' ht => (h.normal hW hm).bind fun p p' hp =>
        (h.normal hW hbase).bind fun b b' hb => .of_ok (Core.Related.ternary _ ht hp hb)
    | induct o he hm hfirst hsecond =>
      exact (h.neutral hW he).bind fun t t' ht => (h.normal hW hm).bind fun p p' hp =>
        (h.normal hW hfirst).bind fun b b' hb => (h.normal hW hsecond).bind fun s s' hs =>
          .of_ok (Core.Related.quaternary _ ht hp hb hs)
    | indAbsurd he hm =>
      exact (h.neutral hW he).bind fun t t' ht => (h.normal hW hm).bind fun p p' hp =>
        .of_ok (Core.Related.binary _ (.binary _ (.const .absurd) ht) hp)
    | cong he hr hf =>
      exact (h.neutral hW he).bind fun t t' ht => (h.normal hW hr).bind fun p p' hp =>
        (h.normal hW hf).bind fun b b' hb => .of_ok (Core.Related.ternary _ ht hp hb)
    | transLeft he hs hp =>
      exact (h.neutral hW he).bind fun t t' ht =>
        (h.normal hW (renamed_closed.reflexive hs hp)).bind fun r r' hr =>
          .of_ok (Core.Related.binary _ ht hr)
    | transRight hs hp he =>
      exact (h.normal hW (renamed_closed.reflexive hs hp)).bind fun l l' hl =>
        (h.neutral hW he).bind fun t t' ht => .of_ok (Core.Related.binary _ hl ht)
    | transBoth he hf =>
      exact (h.neutral hW he).bind fun t t' ht => (h.neutral hW hf).bind fun r r' hr =>
        .of_ok (Core.Related.binary _ ht hr)
    | indVecTarget hl he hm hbase hs =>
      exact (h.normal hW hl).bind fun l l' hl => (h.neutral hW he).bind fun t t' ht =>
        (h.normal hW hm).bind fun p p' hp => (h.normal hW hbase).bind fun b b' hb =>
          (h.normal hW hs).bind fun s s' hs => .of_ok (Core.Related.indVec hl ht hp hb hs)
    | indVecBoth hl he hm hbase hs =>
      exact (h.neutral hW hl).bind fun l l' hl => (h.neutral hW he).bind fun t t' ht =>
        (h.normal hW hm).bind fun p p' hp => (h.normal hW hbase).bind fun b b' hb =>
          (h.normal hW hs).bind fun s s' hs => .of_ok (Core.Related.indVec hl ht hp hb hs)
  | transLeft _ he ha =>
    exact (h.neutral hW he).bind fun t t' ht => (h.normal hW ha).bind fun r r' hr =>
      .of_ok (Core.Related.binary _ ht hr)
  | transRight _ ha he =>
    exact (h.normal hW ha).bind fun l l' hl => (h.neutral hW he).bind fun t t' ht =>
      .of_ok (Core.Related.binary _ hl ht)

end Reads

/-- The variables that two runs bind are equal up to names below the binder. -/
theorem renamed_var {W : World} {y z : String} {base base' : Value}
    (hbase : (renamed K (W.push y z).var).value base base') :
    (renamed K (W.push y z).var).value (.var y base) (.var z base') :=
  renamed_closed.ofHead (.neutral hbase (rule_below_renamed.neutral (.var (Or.inl ⟨rfl, rfl⟩))))

namespace Reads

variable (hb : ∀ x, K.binder x x) {𝒲 : Worlds K} {n m : Nat} (hf : K.Fuels n m)
  (h : Reads 𝒲 n m) {W : World} (hW : 𝒲.admits W)

include hb hf h hW

/-- One step of reading a type back. -/
theorem type_succ {T T' : Value} (hT : (renamed K W.var).value T T') :
    K.Outcomes (Core.Related K W.var) (T.readBackType K.left (n + 1) W.left)
      (T'.readBackType K.right (m + 1) W.right) := by
  refine (renamed_closed.now hT).bind fun T T' hT => ?_
  cases hT with
  | neutral _ he => exact h.neutral hW he
  | const c =>
    cases c with
    | univ => exact Core.Related.const .univ
    | nat => exact Core.Related.const .nat
    | atom => exact Core.Related.const .atom
    | trivial => exact Core.Related.const .trivial
    | absurd => exact Core.Related.const .absurd
    | _ => exact Comparison.outcomes_broken _
  | quant q hx hbase hfam =>
    refine (𝒲.fresh_name hW hx).bind fun y z ⟨hyz, hy, hz, hW'⟩ => ?_
    have hmono := renamed_mono (K := K) (𝒲.var_push hW hy hz hW')
    refine (h.type hW hbase).bind fun b b' hb' => ?_
    refine ((renamed_evaluates hb hf).2.run (hmono.closure hfam)
      (renamed_var (hmono.value hbase))).bind fun r r' hr => ?_
    exact (h.type hW' hr).bind fun t t' ht => .of_ok (Core.Related.quant q hyz hb' ht)
  | unary o ha =>
    cases o with
    | list => exact (h.type hW ha).bind fun t t' ht => .of_ok (Core.Related.unary .list ht)
    | _ => exact Comparison.outcomes_broken _
  | binary o hleft hright =>
    cases o with
    | vec =>
      exact (h.type hW hleft).bind fun t t' ht =>
        (h.value hW (renamed_closed.ofHead (.const .nat)) hright).bind fun l l' hl =>
          .of_ok (Core.Related.binary .vec ht hl)
    | either =>
      exact (h.type hW hleft).bind fun t t' ht => (h.type hW hright).bind fun u u' hu =>
        .of_ok (Core.Related.binary .either ht hu)
    | _ => exact Comparison.outcomes_broken _
  | equal hspace hl hr =>
    exact (h.type hW hspace).bind fun t t' ht => (h.value hW hspace hl).bind fun l l' hl =>
      (h.value hW hspace hr).bind fun r r' hr => .of_ok (Core.Related.ternary .equal ht hl hr)
  | _ => exact Comparison.outcomes_broken _

/-- One step of reading a function back. -/
theorem pi_succ {x y : String} {base base' : Value} {family family' : Closure}
    (hx : K.binder x y) (hbase : (renamed K W.var).value base base')
    (hfam : (renamed K W.var).closure family family') {v w : Value}
    (hv : (renamed K W.var).Head v w) :
    K.Outcomes (Core.Related K W.var)
      (Value.readBack K.left (n + 1) W.left (.pi x base family) v)
      (Value.readBack K.right (m + 1) W.right (.pi y base' family') w) := by
  have hname : K.binder (v.parameterName x) (w.parameterName y) := by
    cases hv with
    | lam hx _ => exact hx
    | _ => exact hx
  rw [Value.readBack, Value.readBack, hv.now_left, hv.now_right]
  refine (𝒲.fresh_name hW hname).bind fun y z ⟨hyz, hy, hz, hW'⟩ => ?_
  have hmono := renamed_mono (K := K) (𝒲.var_push hW hy hz hW')
  have hvar := renamed_var (hmono.value hbase)
  have hap : (renamed K (W.push y z).var).Applies (application K.left n)
      (application K.right m) :=
    (renamed_evaluates hb hf).2
  refine (hap.run (hmono.closure hfam) hvar).bind fun r r' hr => ?_
  refine (hap.apply (hmono.value (renamed_closed.ofHead hv)) hvar).bind fun b b' hb' => ?_
  exact (h.value hW' hr hb').bind fun t t' ht => .of_ok (Core.Related.lam hyz ht)

/-- One step of reading a pair back. -/
theorem sigma_succ {x y : String} {base base' : Value} {family family' : Closure}
    (hbase : (renamed K W.var).value base base')
    (hfam : (renamed K W.var).closure family family') {v w : Value}
    (hv : (renamed K W.var).Head v w) :
    K.Outcomes (Core.Related K W.var)
      (Value.readBack K.left (n + 1) W.left (.sigma x base family) v)
      (Value.readBack K.right (m + 1) W.right (.sigma y base' family') w) := by
  rw [Value.readBack, Value.readBack, hv.now_left, hv.now_right]
  have hap : (renamed K W.var).Applies (application K.left n) (application K.right m) :=
    (renamed_evaluates hb hf).2
  have hpair := renamed_closed.ofHead hv
  refine (car renamed_closed hpair).bind fun a a' ha => ?_
  refine (hap.run hfam ha).bind fun r r' hr => ?_
  refine (cdr renamed_closed hap hpair).bind fun d d' hd => ?_
  exact (h.value hW hr hd).bind fun u u' hu => (h.value hW hbase ha).bind fun t t' ht =>
    .of_ok (Core.Related.binary .cons ht hu)

/-- One step of reading a value back. -/
theorem value_succ {T T' v w : Value} (hT : (renamed K W.var).value T T')
    (hv : (renamed K W.var).value v w) :
    K.Outcomes (Core.Related K W.var) (T.readBack K.left (n + 1) W.left v)
      (T'.readBack K.right (m + 1) W.right w) := by
  refine (renamed_closed.now hT).bind fun T T' hT => ?_
  refine (renamed_closed.now hv).bind fun v w hv => ?_
  cases hT with
  | const c =>
    cases c with
    | univ => exact h.type hW (renamed_closed.ofHead hv)
    | nat =>
      cases hv with
      | neutral _ he => exact h.neutral hW he
      | const c =>
        cases c with
        | zero => exact Core.Related.const .zero
        | _ => exact Comparison.outcomes_broken _
      | unary o ha =>
        cases o with
        | add1 =>
          exact (h.value hW (renamed_closed.ofHead (.const .nat)) ha).bind fun t t' ht =>
            .of_ok (Core.Related.unary .add1 ht)
        | _ => exact Comparison.outcomes_broken _
      | _ => exact Comparison.outcomes_broken _
    | atom =>
      cases hv with
      | neutral _ he => exact h.neutral hW he
      | quote a => exact Core.Related.quote a
      | _ => exact Comparison.outcomes_broken _
    | trivial => exact Core.Related.const .sole
    | absurd =>
      cases hv with
      | neutral _ he =>
        exact (h.neutral hW he).bind fun t t' ht =>
          .of_ok (Core.Related.binary .the (.const .absurd) ht)
      | _ => exact Comparison.outcomes_broken _
    | _ =>
      cases hv with
      | neutral _ he => exact h.neutral hW he
      | _ => exact Comparison.outcomes_broken _
  | quant q hx hbase hfam =>
    cases q with
    | pi =>
      have hpi := h.pi_succ hb hf hW hx hbase hfam hv
      rw [Value.readBack, Value.readBack, hv.now_left, hv.now_right] at hpi
      exact hpi
    | sigma =>
      have hsigma := h.sigma_succ hb hf hW (x := "") (y := "") hbase hfam hv
      rw [Value.readBack, Value.readBack, hv.now_left, hv.now_right] at hsigma
      exact hsigma
  | unary o hentry =>
    cases o with
    | list =>
      cases hv with
      | neutral _ he => exact h.neutral hW he
      | const c =>
        cases c with
        | nil => exact Core.Related.const .nil
        | _ => exact Comparison.outcomes_broken _
      | binary o hhead htail =>
        cases o with
        | listCons =>
          exact (h.value hW hentry hhead).bind fun t t' ht =>
            (h.value hW (renamed_closed.ofHead (.unary .list hentry)) htail).bind fun u u' hu =>
              .of_ok (Core.Related.binary .listCons ht hu)
        | _ => exact Comparison.outcomes_broken _
      | _ => exact Comparison.outcomes_broken _
    | _ =>
      cases hv with
      | neutral _ he => exact h.neutral hW he
      | _ => exact Comparison.outcomes_broken _
  | binary o hleft hright =>
    cases o with
    | vec =>
      cases hv with
      | neutral _ he => exact h.neutral hW he
      | const c =>
        cases c with
        | vecnil => exact Core.Related.const .vecnil
        | _ => exact Comparison.outcomes_broken _
      | binary o hhead htail =>
        cases o with
        | vecCons =>
          refine (renamed_closed.now hright).bind fun l l' hl => ?_
          cases hl with
          | unary o hprevious =>
            cases o with
            | add1 =>
              exact (h.value hW hleft hhead).bind fun t t' ht =>
                (h.value hW (renamed_closed.ofHead (.binary .vec hleft hprevious)) htail).bind
                  fun u u' hu => .of_ok (Core.Related.binary .vecCons ht hu)
            | _ => exact Comparison.outcomes_broken _
          | _ => exact Comparison.outcomes_broken _
        | _ => exact Comparison.outcomes_broken _
      | _ => exact Comparison.outcomes_broken _
    | either =>
      cases hv with
      | neutral _ he => exact h.neutral hW he
      | unary o ha =>
        cases o with
        | left =>
          exact (h.value hW hleft ha).bind fun t t' ht => .of_ok (Core.Related.unary .left ht)
        | right =>
          exact (h.value hW hright ha).bind fun t t' ht => .of_ok (Core.Related.unary .right ht)
        | _ => exact Comparison.outcomes_broken _
      | _ => exact Comparison.outcomes_broken _
    | _ =>
      cases hv with
      | neutral _ he => exact h.neutral hW he
      | _ => exact Comparison.outcomes_broken _
  | equal hspace _ _ =>
    cases hv with
    | neutral _ he => exact h.neutral hW he
    | unary o ha =>
      cases o with
      | same =>
        exact (h.value hW hspace ha).bind fun t t' ht => .of_ok (Core.Related.unary .same ht)
      | _ => exact Comparison.outcomes_broken _
    | _ => exact Comparison.outcomes_broken _
  | _ =>
    cases hv with
    | neutral _ he => exact h.neutral hW he
    | _ => exact Comparison.outcomes_broken _

end Reads

/-- Read-back takes what is equal up to names to related terms. -/
theorem reads (hb : ∀ x, K.binder x x) (𝒲 : Worlds K) {n m : Nat} (hf : K.Fuels n m) :
    Reads 𝒲 n m := by
  induction n generalizing m with
  | zero =>
    exact
      { value := fun {W} _ {T T' v w} _ _ =>
        hf.zero_left (r := fun m => T'.readBack K.right m W.right w) rfl
        type := fun {W} _ {T T'} _ =>
          hf.zero_left (r := fun m => T'.readBackType K.right m W.right) rfl
        neutral := fun {W} _ {e e'} _ =>
          hf.zero_left (r := fun m => e'.readBack K.right m W.right) rfl }
  | succ n ih =>
    cases m with
    | zero =>
      exact ⟨fun _ _ _ _ _ _ _ => hf.zero_right _, fun _ _ _ _ => hf.zero_right _,
        fun _ _ _ _ => hf.zero_right _⟩
    | succ m =>
      have h := ih hf.of_succ
      exact
        { value := fun hW => h.value_succ hb hf.of_succ hW
          type := fun hW => h.type_succ hb hf.of_succ hW
          neutral := fun hW => h.neutral_succ hW }

end Likeness

end PieChecker
