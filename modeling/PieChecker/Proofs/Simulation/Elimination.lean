import PieChecker.Proofs.Simulation.Likeness

set_option autoImplicit false

/-!
# Eliminating values that are alike

Every eliminator takes values that are alike to outcomes that correspond: it computes on the
same constructor on both sides, or is stuck on both with operands that are alike, or breaks on
both. The cases of each proof are those of the outermost constructor of the target.
-/

namespace PieChecker

/-- The names that the types of motives, steps and methods give to their parameters stand for
themselves. -/
structure Comparison.KeepsOperands (K : Comparison) : Prop where
  x : K.binder "x" "x"
  n : K.binder "n" "n"
  previous : K.binder "n-1" "n-1"
  ih : K.binder "ih" "ih"
  e : K.binder "e" "e"
  es : K.binder "es" "es"
  side : K.binder "to" "to"
  k : K.binder "k" "k"
  p : K.binder "p" "p"

theorem Comparison.KeepsOperands.of_forall {K : Comparison} (h : ∀ x, K.binder x x) :
    K.KeepsOperands :=
  ⟨h _, h _, h _, h _, h _, h _, h _, h _, h _⟩

namespace Likeness

variable {K : Comparison} {M : Likeness K}

namespace Closed

variable (hM : M.Closed)

include hM

/-! ## The types of motives, steps and methods -/

section Types

variable (hb : K.KeepsOperands)

theorem arrow {x : String} (hx : K.binder x x) {base base' result result' : Value}
    (h : M.value base base') (hr : M.value result result') :
    M.value (.arrow x base result) (.arrow x base' result') :=
  hM.ofHead (.quant .pi hx h (hM.closure <| .constant hr))

include hb

theorem motiveType {base base' : Value} (h : M.value base base') :
    M.value (.motiveType base) (.motiveType base') :=
  hM.arrow hb.x h (hM.ofHead (.const .univ))

theorem whichNatStepType {result result' : Value} (h : M.value result result') :
    M.value (.whichNatStepType result) (.whichNatStepType result') :=
  hM.arrow hb.n (hM.ofHead (.const .nat)) h

theorem iterNatStepType {result result' : Value} (h : M.value result result') :
    M.value (.iterNatStepType result) (.iterNatStepType result') :=
  hM.arrow hb.ih h h

theorem recNatStepType {result result' : Value} (h : M.value result result') :
    M.value (.recNatStepType result) (.recNatStepType result') :=
  hM.arrow hb.previous (hM.ofHead (.const .nat)) (hM.arrow hb.ih h h)

theorem indNatStepType {motive motive' : Value} (h : M.value motive motive') :
    M.value (.indNatStepType motive) (.indNatStepType motive') :=
  hM.ofHead (.quant .pi hb.previous (hM.ofHead (.const .nat)) (hM.closure <| .indNatStep h))

theorem recListStepType {entry entry' result result' : Value} (he : M.value entry entry')
    (h : M.value result result') :
    M.value (.recListStepType entry result) (.recListStepType entry' result') :=
  hM.arrow hb.e he (hM.arrow hb.es (hM.ofHead (.unary .list he)) (hM.arrow hb.ih h h))

theorem indListStepType {entry entry' motive motive' : Value} (he : M.value entry entry')
    (h : M.value motive motive') :
    M.value (.indListStepType entry motive) (.indListStepType entry' motive') :=
  hM.ofHead (.quant .pi hb.e he (hM.closure <| .indListStep he h))

theorem indEqMotiveType {ty ty' lhs lhs' : Value} (ht : M.value ty ty')
    (hl : M.value lhs lhs') :
    M.value (.indEqMotiveType ty lhs) (.indEqMotiveType ty' lhs') :=
  hM.ofHead (.quant .pi hb.side ht (hM.closure <| .indEqMotive ht hl))

theorem indVecMotiveType {entry entry' : Value} (he : M.value entry entry') :
    M.value (.indVecMotiveType entry) (.indVecMotiveType entry') :=
  hM.ofHead (.quant .pi hb.k (hM.ofHead (.const .nat)) (hM.closure <| .indVecMotive he))

theorem indVecStepType {entry entry' motive motive' : Value} (he : M.value entry entry')
    (h : M.value motive motive') :
    M.value (.indVecStepType entry motive) (.indVecStepType entry' motive') :=
  hM.ofHead (.quant .pi hb.k (hM.ofHead (.const .nat)) (hM.closure <| .indVecStep he h))

theorem indEitherMethodType (side : Side) {ty ty' motive motive' : Value} (ht : M.value ty ty')
    (h : M.value motive motive') :
    M.value (.indEitherMethodType side ty motive) (.indEitherMethodType side ty' motive') :=
  hM.ofHead (.quant .pi hb.x ht (hM.closure <| .indEitherMethod side h))

end Types

theorem inject (side : Side) {v w : Value} (h : M.value v w) :
    M.value (.inject side v) (.inject side w) := by
  cases side with
  | left => exact hM.ofHead (.unary .left h)
  | right => exact hM.ofHead (.unary .right h)

theorem reflexive {space space' point point' : Value} (hs : M.value space space')
    (hp : M.value point point') :
    M.normal (Value.reflexive space point) (Value.reflexive space' point') :=
  ⟨hM.ofHead (.equal hs hp hp), hM.ofHead (.unary .same hp)⟩

end Closed

section Projections

variable (hM : M.Closed)

include hM

/-! ## Pairs -/

theorem car {t t' : Value} (ht : M.value t t') : K.Outcomes M.value t.car t'.car := by
  refine (hM.now ht).bind fun v w h => ?_
  cases h with
  | binary o ha hd =>
    cases o with
    | cons => exact ha
    | _ => exact Comparison.outcomes_broken _
  | neutral hty he =>
    refine (hM.now hty).bind fun ty ty' h => ?_
    cases h with
    | quant q hx hbase hf =>
      cases q with
      | pi => exact Comparison.outcomes_broken _
      | sigma => exact hM.ofHead (.neutral hbase (hM.neutral <| .project .car he))
    | _ => exact Comparison.outcomes_broken _
  | _ => exact Comparison.outcomes_broken _

/-! ## The empty type -/

theorem indAbsurd {t t' motive motive' : Value} (ht : M.value t t')
    (hm : M.value motive motive') :
    K.Outcomes M.value (t.indAbsurd motive) (t'.indAbsurd motive') := by
  refine (hM.now ht).bind fun v w h => ?_
  cases h with
  | neutral hty he =>
    exact hM.ofHead (.neutral hm (hM.neutral <| .indAbsurd he ⟨hM.ofHead (.const .univ), hm⟩))
  | _ => exact Comparison.outcomes_broken _

/-! ## Equality -/

theorem trans {l l' r r' : Value} (hl : M.value l l') (hr : M.value r r') :
    K.Outcomes M.value (l.trans r) (l'.trans r') := by
  refine (hM.now hl).bind fun v v' h => (hM.now hr).bind fun w w' h' => ?_
  cases h with
  | unary o hlhs =>
    cases o with
    | same =>
      cases h' with
      | unary o _ =>
        cases o with
        | same => exact hM.ofHead (.unary .same hlhs)
        | _ => exact Comparison.outcomes_broken _
      | neutral hty he =>
        refine (hM.now hty).bind fun ty ty' h => ?_
        cases h with
        | equal hspace _ hrhs =>
          exact hM.ofHead (.neutral (hM.ofHead (.equal hspace hlhs hrhs))
            (hM.neutral <| .transRight hspace hlhs he))
        | _ => exact Comparison.outcomes_broken _
      | _ => exact Comparison.outcomes_broken _
    | _ => exact Comparison.outcomes_broken _
  | neutral hty he =>
    cases h' with
    | unary o hrhs =>
      cases o with
      | same =>
        refine (hM.now hty).bind fun ty ty' h => ?_
        cases h with
        | equal hspace hlhs _ =>
          exact hM.ofHead (.neutral (hM.ofHead (.equal hspace hlhs hrhs))
            (hM.neutral <| .transLeft he hspace hrhs))
        | _ => exact Comparison.outcomes_broken _
      | _ => exact Comparison.outcomes_broken _
    | neutral hty' he' =>
      refine (hM.now hty).bind fun ty ty' h => (hM.now hty').bind fun uy uy' h' => ?_
      cases h with
      | equal hspace hlhs _ =>
        cases h' with
        | equal _ _ hrhs =>
          exact hM.ofHead (.neutral (hM.ofHead (.equal hspace hlhs hrhs))
            (hM.neutral <| .transBoth he he'))
        | _ => exact Comparison.outcomes_broken _
      | _ => exact Comparison.outcomes_broken _
    | _ => exact Comparison.outcomes_broken _
  | _ => exact Comparison.outcomes_broken _

theorem symm {t t' : Value} (ht : M.value t t') : K.Outcomes M.value t.symm t'.symm := by
  refine (hM.now ht).bind fun v w h => ?_
  cases h with
  | unary o ha =>
    cases o with
    | same => exact hM.ofHead (.unary .same ha)
    | _ => exact Comparison.outcomes_broken _
  | neutral hty he =>
    refine (hM.now hty).bind fun ty ty' h => ?_
    cases h with
    | equal hspace hl hr =>
      exact hM.ofHead (.neutral (hM.ofHead (.equal hspace hr hl))
        (hM.neutral <| .project .symm he))
    | _ => exact Comparison.outcomes_broken _
  | _ => exact Comparison.outcomes_broken _

/-! ## Lists of known length -/

theorem head {t t' : Value} (ht : M.value t t') : K.Outcomes M.value t.head t'.head := by
  refine (hM.now ht).bind fun v w h => ?_
  cases h with
  | binary o ha hd =>
    cases o with
    | vecCons => exact ha
    | _ => exact Comparison.outcomes_broken _
  | neutral hty he =>
    refine (hM.now hty).bind fun ty ty' h => ?_
    cases h with
    | binary o hentry hlength =>
      cases o with
      | vec => exact hM.ofHead (.neutral hentry (hM.neutral <| .project .head he))
      | _ => exact Comparison.outcomes_broken _
    | _ => exact Comparison.outcomes_broken _
  | _ => exact Comparison.outcomes_broken _

theorem tail {t t' : Value} (ht : M.value t t') : K.Outcomes M.value t.tail t'.tail := by
  refine (hM.now ht).bind fun v w h => ?_
  cases h with
  | binary o ha hd =>
    cases o with
    | vecCons => exact hd
    | _ => exact Comparison.outcomes_broken _
  | neutral hty he =>
    refine (hM.now hty).bind fun ty ty' h => ?_
    cases h with
    | binary o hentry hlength =>
      cases o with
      | vec =>
        refine (hM.now hlength).bind fun l l' h => ?_
        cases h with
        | unary o hprevious =>
          cases o with
          | add1 =>
            exact hM.ofHead (.neutral (hM.ofHead (.binary .vec hentry hprevious))
              (hM.neutral <| .project .tail he))
          | _ => exact Comparison.outcomes_broken _
        | _ => exact Comparison.outcomes_broken _
      | _ => exact Comparison.outcomes_broken _
    | _ => exact Comparison.outcomes_broken _
  | _ => exact Comparison.outcomes_broken _

end Projections

section Eliminators

variable (hM : M.Closed) (hb : K.KeepsOperands) {ap ap' : Application}
  (hap : M.Applies ap ap')

include hM hb hap

/-! ## Natural numbers -/

theorem whichNat {t t' result result' base base' step step' : Value} (ht : M.value t t')
    (hr : M.value result result') (hbase : M.value base base') (hs : M.value step step') :
    K.Outcomes M.value (t.whichNat ap result base step)
      (t'.whichNat ap' result' base' step') := by
  refine (hM.now ht).bind fun v w h => ?_
  cases h with
  | neutral hty he =>
    exact hM.ofHead (.neutral hr
      (hM.neutral <| .recursor .whichNat he ⟨hr, hbase⟩ ⟨hM.whichNatStepType hb hr, hs⟩))
  | const c =>
    cases c with
    | zero => exact hbase
    | _ => exact Comparison.outcomes_broken _
  | unary o ha =>
    cases o with
    | add1 => exact hap.apply hs ha
    | _ => exact Comparison.outcomes_broken _
  | _ => exact Comparison.outcomes_broken _

theorem iterNat {result result' base base' step step' : Value} (hr : M.value result result')
    (hbase : M.value base base') (hs : M.value step step') {n m : Nat} (hf : K.Fuels n m)
    {t t' : Value} (ht : M.value t t') :
    K.Outcomes M.value (Value.iterNat ap result base step n t)
      (Value.iterNat ap' result' base' step' m t') := by
  induction n generalizing m t t' with
  | zero => exact hf.zero_left (r := fun m => Value.iterNat ap' result' base' step' m t') rfl
  | succ n ih =>
    cases m with
    | zero => exact hf.zero_right _
    | succ m =>
      refine (hM.now ht).bind fun v w h => ?_
      cases h with
      | neutral hty he =>
        exact hM.ofHead (.neutral hr
          (hM.neutral <| .recursor .iterNat he ⟨hr, hbase⟩ ⟨hM.iterNatStepType hb hr, hs⟩))
      | const c =>
        cases c with
        | zero => exact hbase
        | _ => exact Comparison.outcomes_broken _
      | unary o ha =>
        cases o with
        | add1 => exact (ih hf.of_succ ha).bind fun r r' hrec => hap.apply hs hrec
        | _ => exact Comparison.outcomes_broken _
      | _ => exact Comparison.outcomes_broken _

theorem recNat {result result' base base' step step' : Value} (hr : M.value result result')
    (hbase : M.value base base') (hs : M.value step step') {n m : Nat} (hf : K.Fuels n m)
    {t t' : Value} (ht : M.value t t') :
    K.Outcomes M.value (Value.recNat ap result base step n t)
      (Value.recNat ap' result' base' step' m t') := by
  induction n generalizing m t t' with
  | zero => exact hf.zero_left (r := fun m => Value.recNat ap' result' base' step' m t') rfl
  | succ n ih =>
    cases m with
    | zero => exact hf.zero_right _
    | succ m =>
      refine (hM.now ht).bind fun v w h => ?_
      cases h with
      | neutral hty he =>
        exact hM.ofHead (.neutral hr
          (hM.neutral <| .recursor .recNat he ⟨hr, hbase⟩ ⟨hM.recNatStepType hb hr, hs⟩))
      | const c =>
        cases c with
        | zero => exact hbase
        | _ => exact Comparison.outcomes_broken _
      | unary o ha =>
        cases o with
        | add1 =>
          refine (ih hf.of_succ ha).bind fun r r' hrec => ?_
          exact (hap.apply hs ha).bind fun f f' hfun => hap.apply hfun hrec
        | _ => exact Comparison.outcomes_broken _
      | _ => exact Comparison.outcomes_broken _

theorem indNat {motive motive' base base' step step' : Value} (hm : M.value motive motive')
    (hbase : M.value base base') (hs : M.value step step') {n m : Nat} (hf : K.Fuels n m)
    {t t' : Value} (ht : M.value t t') :
    K.Outcomes M.value (Value.indNat ap motive base step n t)
      (Value.indNat ap' motive' base' step' m t') := by
  induction n generalizing m t t' with
  | zero => exact hf.zero_left (r := fun m => Value.indNat ap' motive' base' step' m t') rfl
  | succ n ih =>
    cases m with
    | zero => exact hf.zero_right _
    | succ m =>
      refine (hM.now ht).bind fun v w h => ?_
      cases h with
      | neutral hty he =>
        refine (hap.apply hm ht).bind fun ty ty' hty => ?_
        refine (hap.apply hm (hM.ofHead (.const .zero))).bind fun bt bt' hbt => ?_
        exact hM.ofHead (.neutral hty
          (hM.neutral <| .induct .indNat he ⟨hM.motiveType hb (hM.ofHead (.const .nat)), hm⟩
            ⟨hbt, hbase⟩ ⟨hM.indNatStepType hb hm, hs⟩))
      | const c =>
        cases c with
        | zero => exact hbase
        | _ => exact Comparison.outcomes_broken _
      | unary o ha =>
        cases o with
        | add1 =>
          refine (ih hf.of_succ ha).bind fun r r' hrec => ?_
          exact (hap.apply hs ha).bind fun f f' hfun => hap.apply hfun hrec
        | _ => exact Comparison.outcomes_broken _
      | _ => exact Comparison.outcomes_broken _

/-! ## Pairs -/

omit hb in
theorem cdr {t t' : Value} (ht : M.value t t') :
    K.Outcomes M.value (t.cdr ap) (t'.cdr ap') := by
  refine (hM.now ht).bind fun v w h => ?_
  cases h with
  | binary o ha hd =>
    cases o with
    | cons => exact hd
    | _ => exact Comparison.outcomes_broken _
  | neutral hty he =>
    refine (hM.now hty).bind fun ty ty' h => ?_
    cases h with
    | quant q hx hbase hf =>
      cases q with
      | pi => exact Comparison.outcomes_broken _
      | sigma =>
        refine (car hM ht).bind fun a a' ha => ?_
        exact (hap.run hf ha).bind fun result result' hr =>
          hM.ofHead (.neutral hr (hM.neutral <| .project .cdr he))
    | _ => exact Comparison.outcomes_broken _
  | _ => exact Comparison.outcomes_broken _

/-! ## Lists -/

theorem recList {result result' base base' step step' : Value} (hr : M.value result result')
    (hbase : M.value base base') (hs : M.value step step') {n m : Nat} (hf : K.Fuels n m)
    {t t' : Value} (ht : M.value t t') :
    K.Outcomes M.value (Value.recList ap result base step n t)
      (Value.recList ap' result' base' step' m t') := by
  induction n generalizing m t t' with
  | zero => exact hf.zero_left (r := fun m => Value.recList ap' result' base' step' m t') rfl
  | succ n ih =>
    cases m with
    | zero => exact hf.zero_right _
    | succ m =>
      refine (hM.now ht).bind fun v w h => ?_
      cases h with
      | neutral hty he =>
        refine (hM.now hty).bind fun ty ty' h => ?_
        cases h with
        | unary o hentry =>
          cases o with
          | list =>
            exact hM.ofHead (.neutral hr (hM.neutral <| .recursor .recList he ⟨hr, hbase⟩
              ⟨hM.recListStepType hb hentry hr, hs⟩))
          | _ => exact Comparison.outcomes_broken _
        | _ => exact Comparison.outcomes_broken _
      | const c =>
        cases c with
        | nil => exact hbase
        | _ => exact Comparison.outcomes_broken _
      | binary o hhead htail =>
        cases o with
        | listCons =>
          refine (ih hf.of_succ htail).bind fun r r' hrec => ?_
          refine (hap.apply hs hhead).bind fun f f' hfun => ?_
          exact (hap.apply hfun htail).bind fun g g' hgun => hap.apply hgun hrec
        | _ => exact Comparison.outcomes_broken _
      | _ => exact Comparison.outcomes_broken _

theorem indList {motive motive' base base' step step' : Value} (hm : M.value motive motive')
    (hbase : M.value base base') (hs : M.value step step') {n m : Nat} (hf : K.Fuels n m)
    {t t' : Value} (ht : M.value t t') :
    K.Outcomes M.value (Value.indList ap motive base step n t)
      (Value.indList ap' motive' base' step' m t') := by
  induction n generalizing m t t' with
  | zero => exact hf.zero_left (r := fun m => Value.indList ap' motive' base' step' m t') rfl
  | succ n ih =>
    cases m with
    | zero => exact hf.zero_right _
    | succ m =>
      refine (hM.now ht).bind fun v w h => ?_
      cases h with
      | neutral hty he =>
        refine (hM.now hty).bind fun ty ty' h => ?_
        cases h with
        | unary o hentry =>
          cases o with
          | list =>
            refine (hap.apply hm ht).bind fun ty ty' hresult => ?_
            refine (hap.apply hm (hM.ofHead (.const .nil))).bind fun bt bt' hbt => ?_
            exact hM.ofHead (.neutral hresult (hM.neutral <| .induct .indList he
              ⟨hM.motiveType hb (hM.ofHead (.unary .list hentry)), hm⟩ ⟨hbt, hbase⟩
              ⟨hM.indListStepType hb hentry hm, hs⟩))
          | _ => exact Comparison.outcomes_broken _
        | _ => exact Comparison.outcomes_broken _
      | const c =>
        cases c with
        | nil => exact hbase
        | _ => exact Comparison.outcomes_broken _
      | binary o hhead htail =>
        cases o with
        | listCons =>
          refine (ih hf.of_succ htail).bind fun r r' hrec => ?_
          refine (hap.apply hs hhead).bind fun f f' hfun => ?_
          exact (hap.apply hfun htail).bind fun g g' hgun => hap.apply hgun hrec
        | _ => exact Comparison.outcomes_broken _
      | _ => exact Comparison.outcomes_broken _

/-! ## Equality -/

theorem replace {t t' motive motive' base base' : Value} (ht : M.value t t')
    (hm : M.value motive motive') (hbase : M.value base base') :
    K.Outcomes M.value (t.replace ap motive base) (t'.replace ap' motive' base') := by
  refine (hM.now ht).bind fun v w h => ?_
  cases h with
  | unary o ha =>
    cases o with
    | same => exact hbase
    | _ => exact Comparison.outcomes_broken _
  | neutral hty he =>
    refine (hM.now hty).bind fun ty ty' h => ?_
    cases h with
    | equal hspace hl hr =>
      refine (hap.apply hm hr).bind fun result result' hresult => ?_
      refine (hap.apply hm hl).bind fun bt bt' hbt => ?_
      exact hM.ofHead (.neutral hresult
        (hM.neutral <| .transport .replace he ⟨hM.motiveType hb hspace, hm⟩ ⟨hbt, hbase⟩))
    | _ => exact Comparison.outcomes_broken _
  | _ => exact Comparison.outcomes_broken _

theorem cong {t t' result result' function function' : Value} (ht : M.value t t')
    (hr : M.value result result') (hfun : M.value function function') :
    K.Outcomes M.value (t.cong ap result function) (t'.cong ap' result' function') := by
  refine (hM.now ht).bind fun v w h => ?_
  cases h with
  | unary o ha =>
    cases o with
    | same => exact (hap.apply hfun ha).bind fun p p' hp => hM.ofHead (.unary .same hp)
    | _ => exact Comparison.outcomes_broken _
  | neutral hty he =>
    refine (hM.now hty).bind fun ty ty' h => ?_
    cases h with
    | equal hspace hl hrhs =>
      refine (hap.apply hfun hl).bind fun lhs lhs' hlhs => ?_
      refine (hap.apply hfun hrhs).bind fun rhs rhs' hrhs => ?_
      exact hM.ofHead (.neutral (hM.ofHead (.equal hr hlhs hrhs))
        (hM.neutral <| .cong he ⟨hM.ofHead (.const .univ), hr⟩ ⟨hM.arrow hb.x hspace hr, hfun⟩))
    | _ => exact Comparison.outcomes_broken _
  | _ => exact Comparison.outcomes_broken _

theorem indEq {t t' motive motive' base base' : Value} (ht : M.value t t')
    (hm : M.value motive motive') (hbase : M.value base base') :
    K.Outcomes M.value (t.indEq ap motive base) (t'.indEq ap' motive' base') := by
  refine (hM.now ht).bind fun v w h => ?_
  cases h with
  | unary o ha =>
    cases o with
    | same => exact hbase
    | _ => exact Comparison.outcomes_broken _
  | neutral hty he =>
    refine (hM.now hty).bind fun ty ty' h => ?_
    cases h with
    | equal hspace hl hr =>
      refine (hap.apply hm hl).bind fun f f' hf => ?_
      refine (hap.apply hf (hM.ofHead (.unary .same hl))).bind fun bt bt' hbt => ?_
      refine (hap.apply hm hr).bind fun g g' hg => ?_
      refine (hap.apply hg ht).bind fun result result' hresult => ?_
      exact hM.ofHead (.neutral hresult
        (hM.neutral <| .transport .indEq he ⟨hM.indEqMotiveType hb hspace hl, hm⟩ ⟨hbt, hbase⟩))
    | _ => exact Comparison.outcomes_broken _
  | _ => exact Comparison.outcomes_broken _

/-! ## Lists of known length -/

theorem indVecStuck {motive motive' base base' step step' k k' t t' ty ty' : Value}
    {e e' : Neutral} (hm : M.value motive motive') (hbase : M.value base base')
    (hs : M.value step step') (hk : M.Head k k') (ht : M.value t t') (hty : M.value ty ty')
    (he : M.neutral e e') :
    K.Outcomes M.value (Value.indVecStuck ap motive base step k t ty e)
      (Value.indVecStuck ap' motive' base' step' k' t' ty' e') := by
  refine (hM.now hty).bind fun ty ty' h => ?_
  cases h with
  | binary o hentry hlength =>
    cases o with
    | vec =>
      refine (hap.apply hm (hM.ofHead hk)).bind fun f f' hf => ?_
      refine (hap.apply hf ht).bind fun result result' hresult => ?_
      refine (hap.apply hm (hM.ofHead (.const .zero))).bind fun g g' hg => ?_
      refine (hap.apply hg (hM.ofHead (.const .vecnil))).bind fun bt bt' hbt => ?_
      have hmotive := hM.indVecMotiveType hb hentry
      have hstep := hM.indVecStepType hb hentry hm
      have hlength := hM.ofHead hk
      -- Only the length decides on which of the two forms the elimination is stuck.
      cases hk with
      | neutral _ hl =>
        exact hM.ofHead (.neutral hresult
          (hM.neutral <| .indVecBoth hl he ⟨hmotive, hm⟩ ⟨hbt, hbase⟩ ⟨hstep, hs⟩))
      | _ =>
        exact hM.ofHead (.neutral hresult
          (hM.neutral <| .indVecTarget ⟨hM.ofHead (.const .nat), hlength⟩ he ⟨hmotive, hm⟩
            ⟨hbt, hbase⟩ ⟨hstep, hs⟩))
    | _ => exact Comparison.outcomes_broken _
  | _ => exact Comparison.outcomes_broken _

theorem indVec {motive motive' base base' step step' : Value} (hm : M.value motive motive')
    (hbase : M.value base base') (hs : M.value step step') {n m : Nat} (hf : K.Fuels n m)
    {l l' t t' : Value} (hl : M.value l l') (ht : M.value t t') :
    K.Outcomes M.value (Value.indVec ap motive base step n l t)
      (Value.indVec ap' motive' base' step' m l' t') := by
  induction n generalizing m l l' t t' with
  | zero => exact hf.zero_left (r := fun m => Value.indVec ap' motive' base' step' m l' t') rfl
  | succ n ih =>
    cases m with
    | zero => exact hf.zero_right _
    | succ m =>
      refine (hM.now hl).bind fun k k' hk => ?_
      refine (hM.now ht).bind fun v w h => ?_
      cases h with
      | const c =>
        cases c with
        | vecnil => cases hk <;> exact hbase
        | _ => cases hk <;> exact Comparison.outcomes_broken _
      | binary o hhead htail =>
        cases o with
        | vecCons =>
          cases hk with
          | unary o hprevious =>
            cases o with
            | add1 =>
              refine (ih hf.of_succ hprevious htail).bind fun r r' hrec => ?_
              refine (hap.apply hs hprevious).bind fun f f' hf => ?_
              refine (hap.apply hf hhead).bind fun g g' hg => ?_
              exact (hap.apply hg htail).bind fun i i' hi => hap.apply hi hrec
            | _ => exact Comparison.outcomes_broken _
          | _ => exact Comparison.outcomes_broken _
        | _ => cases hk <;> exact Comparison.outcomes_broken _
      | neutral hty he =>
        have hstuck := indVecStuck hM hb hap hm hbase hs hk ht hty he
        cases hk <;> exact hstuck
      | _ => cases hk <;> exact Comparison.outcomes_broken _

/-! ## Sums -/

theorem indEither {t t' motive motive' left left' right right' : Value} (ht : M.value t t')
    (hm : M.value motive motive') (hl : M.value left left') (hr : M.value right right') :
    K.Outcomes M.value (t.indEither ap motive left right)
      (t'.indEither ap' motive' left' right') := by
  refine (hM.now ht).bind fun v w h => ?_
  cases h with
  | unary o ha =>
    cases o with
    | left => exact hap.apply hl ha
    | right => exact hap.apply hr ha
    | _ => exact Comparison.outcomes_broken _
  | neutral hty he =>
    refine (hM.now hty).bind fun ty ty' h => ?_
    cases h with
    | binary o hleft hright =>
      cases o with
      | either =>
        refine (hap.apply hm ht).bind fun result result' hresult => ?_
        exact hM.ofHead (.neutral hresult (hM.neutral <| .induct .indEither he
          ⟨hM.motiveType hb (hM.ofHead (.binary .either hleft hright)), hm⟩
          ⟨hM.indEitherMethodType hb .left hleft hm, hl⟩
            ⟨hM.indEitherMethodType hb .right hright hm, hr⟩))
      | _ => exact Comparison.outcomes_broken _
    | _ => exact Comparison.outcomes_broken _
  | _ => exact Comparison.outcomes_broken _

end Eliminators

end Likeness

end PieChecker
