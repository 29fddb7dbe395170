import PieChecker.Proofs.Simulation.Elimination

set_option autoImplicit false

/-!
# Evaluating related terms

Terms that are related evaluate to values that are alike, if their environments are. The
evaluator recurses on fuel, so what is shown here is one step of it, for any likeness: if the
evaluator compares well with the fuel below, it does so with one unit more. The same is shown of
applying functions and of giving closures their arguments.
-/

namespace PieChecker

namespace Core.Related

variable {K : Comparison}

/-- Related terms are delayed together. -/
theorem isImmediate_eq {σ : NameRelation} {t t' : Core} (h : Core.Related K σ t t') :
    t.isImmediate = t'.isImmediate := by
  cases h <;> rfl

end Core.Related

namespace Likeness

variable {K : Comparison} {M : Likeness K}

namespace Environments

/-- A binder adds values that are alike for its two parameters. -/
theorem cons {σ : NameRelation} {ρ ρ' : Environment} (h : M.Environments σ ρ ρ') {v w : Value}
    (hv : M.value v w) (x y : String) :
    M.Environments (σ.push x y) ((x, v) :: ρ) ((y, w) :: ρ') where
  isSome_eq := by
    rintro a b (⟨rfl, rfl⟩ | ⟨ha, hb, hσ⟩)
    · simp only [List.lookup_cons_self, Option.isSome_some]
    · rw [List.lookup_cons, List.lookup_cons, beq_false_of_ne ha, beq_false_of_ne hb]
      exact h.isSome_eq a b hσ
  unbound := by
    rintro a b (⟨rfl, rfl⟩ | ⟨ha, hb, hσ⟩) hnone
    · simp only [List.lookup_cons_self, reduceCtorEq] at hnone
    · rw [List.lookup_cons, beq_false_of_ne ha] at hnone
      exact h.unbound a b hσ hnone
  value := by
    rintro a b v' w' (⟨rfl, rfl⟩ | ⟨ha, hb, hσ⟩) hv' hw'
    · rw [List.lookup_cons_self] at hv' hw'
      cases hv'
      cases hw'
      exact hv
    · rw [List.lookup_cons, beq_false_of_ne ha] at hv'
      rw [List.lookup_cons, beq_false_of_ne hb] at hw'
      exact h.value a b v' w' hσ hv' hw'

/-- Corresponding names have values that are alike, or the two runs may both stop at them. -/
theorem lookup {σ : NameRelation} {ρ ρ' : Environment} (h : M.Environments σ ρ ρ')
    {x y : String} (hσ : σ x y) :
    K.Outcomes M.value
      (match ρ.lookup x with | some v => .ok v | none => Outcome.unbound)
      (match ρ'.lookup y with | some v => .ok v | none => Outcome.unbound) := by
  have hsome := h.isSome_eq x y hσ
  cases hx : ρ.lookup x with
  | some v =>
    cases hy : ρ'.lookup y with
    | some w => exact h.value x y v w hσ hx hy
    | none => rw [hx, hy] at hsome; cases hsome
  | none =>
    cases hy : ρ'.lookup y with
    | some w => rw [hx, hy] at hsome; cases hsome
    | none => exact Compared.of_errors ⟨rfl, h.unbound x y hσ hx⟩

end Environments

/-- A part that may be delayed is compared as the evaluation that it delays. -/
theorem part (hM : M.Closed) {evaluate evaluate' : Core → Outcome Value} {t t' : Core}
    (himm : t.isImmediate = t'.isImmediate)
    (h : K.Outcomes M.value (evaluate t) (evaluate' t')) :
    K.Outcomes M.value (K.left.part evaluate t) (K.right.part evaluate' t') := by
  rcases K.strategies with hs | ⟨hl, hr, hfree⟩ | ⟨hl, hr, hfree⟩
  · rw [hs]
    cases K.right with
    | atOnce => exact h
    | onDemand =>
      simp only [Strategy.part, himm]
      split
      · exact h
      · exact hM.suspend h
  · rw [hl, hr]
    simp only [Strategy.part]
    split
    · exact h
    · cases hv : evaluate t with
      | error s => exact Compared.of_left (hfree s) _
      | ok v =>
        rw [hv] at h
        exact hM.suspend_right h
  · rw [hl, hr]
    simp only [Strategy.part]
    split
    · exact h
    · cases hw : evaluate' t' with
      | error s => exact Compared.of_right (hfree s) _
      | ok w =>
        rw [hw] at h
        exact hM.suspend_left h

/-- The evaluators of the two runs, with the given amounts of fuel, take related terms to values
that are alike. -/
def Evaluates (M : Likeness K) (n m : Nat) : Prop :=
  ∀ {σ : NameRelation} {ρ ρ' : Environment} {t t' : Core}, M.Environments σ ρ ρ' →
    Core.Related K σ t t' →
    K.Outcomes M.value (t.evaluate K.left n ρ) (t'.evaluate K.right m ρ')

/-- What the evaluator of a run gives the eliminators, with the given fuel. -/
abbrev application (strategy : Strategy) (n : Nat) : Application :=
  ⟨Value.apply strategy n, Closure.run strategy n⟩

section Step

variable (hM : M.Closed) (hb : K.KeepsOperands) {n m : Nat}

include hM hb

/-- One step of the evaluator. -/
theorem Evaluates.succ (hf : K.Fuels n m) (hev : M.Evaluates n m)
    (hap : M.Applies (application K.left n) (application K.right m)) :
    M.Evaluates (n + 1) (m + 1) := by
  intro σ ρ ρ' t t' hρ ht
  -- a part is evaluated now or later; either way its value is like the other one's
  have later : ∀ {a a' : Core}, Core.Related K σ a a' →
      K.Outcomes M.value (K.left.part (Core.evaluate K.left n ρ) a)
        (K.right.part (Core.evaluate K.right m ρ') a') :=
    fun ha => part hM ha.isImmediate_eq (hev hρ ha)
  cases ht with
  | var h => exact hρ.lookup h
  | const c => exact hM.ofHead (.const c)
  | quote a => exact hM.ofHead (.quote a)
  | todo hs hty =>
    exact (hev hρ hty).bind fun ty ty' hty => hM.ofHead (hM.todo hs hty)
  | quant q hx hbase hfam =>
    exact (hev hρ hbase).bind fun v w hv =>
      hM.ofHead (.quant q hx hv (hM.closure <| .captured hfam hρ))
  | lam hx hbody => exact hM.ofHead (.lam hx (hM.closure <| .captured hbody hρ))
  | unary o ha =>
    cases o with
    | add1 => exact (later ha).bind fun v w hv => hM.ofHead (.unary .add1 hv)
    | car => exact (hev hρ ha).bind fun v w hv => car hM hv
    | cdr => exact (hev hρ ha).bind fun v w hv => cdr hM hap hv
    | list => exact (hev hρ ha).bind fun v w hv => hM.ofHead (.unary .list hv)
    | same => exact (later ha).bind fun v w hv => hM.ofHead (.unary .same hv)
    | symm => exact (hev hρ ha).bind fun v w hv => symm hM hv
    | head => exact (hev hρ ha).bind fun v w hv => head hM hv
    | tail => exact (hev hρ ha).bind fun v w hv => tail hM hv
    | left => exact (later ha).bind fun v w hv => hM.ofHead (.unary .left hv)
    | right => exact (later ha).bind fun v w hv => hM.ofHead (.unary .right hv)
  | binary o ha hb' =>
    cases o with
    | the => exact hev hρ hb'
    | apply =>
      exact (hev hρ ha).bind fun f f' hfun => (later hb').bind fun a a' harg =>
        hap.apply hfun harg
    | cons =>
      exact (later ha).bind fun v w hv => (later hb').bind fun v' w' hv' =>
        hM.ofHead (.binary .cons hv hv')
    | listCons =>
      exact (later ha).bind fun v w hv => (later hb').bind fun v' w' hv' =>
        hM.ofHead (.binary .listCons hv hv')
    | indAbsurd =>
      exact (hev hρ ha).bind fun v w hv => (hev hρ hb').bind fun v' w' hv' =>
        indAbsurd hM hv hv'
    | trans =>
      exact (hev hρ ha).bind fun v w hv => (hev hρ hb').bind fun v' w' hv' => trans hM hv hv'
    | vec =>
      exact (hev hρ ha).bind fun v w hv => (hev hρ hb').bind fun v' w' hv' =>
        hM.ofHead (.binary .vec hv hv')
    | vecCons =>
      exact (later ha).bind fun v w hv => (later hb').bind fun v' w' hv' =>
        hM.ofHead (.binary .vecCons hv hv')
    | either =>
      exact (hev hρ ha).bind fun v w hv => (hev hρ hb').bind fun v' w' hv' =>
        hM.ofHead (.binary .either hv hv')
  | ternary o ha hb' hc =>
    cases o with
    | equal =>
      exact (hev hρ ha).bind fun ty ty' hty => (later hb').bind fun l l' hl =>
        (later hc).bind fun r r' hr =>
        hM.ofHead (.equal hty hl hr)
    | replace =>
      exact (hev hρ ha).bind fun t t' ht => (hev hρ hb').bind fun p p' hp =>
        (hev hρ hc).bind fun v w hv =>
        replace hM hb hap ht hp hv
    | cong =>
      exact (hev hρ ha).bind fun t t' ht => (hev hρ hb').bind fun p p' hp =>
        (hev hρ hc).bind fun v w hv =>
        cong hM hb hap ht hp hv
    | indEq =>
      exact (hev hρ ha).bind fun t t' ht => (hev hρ hb').bind fun p p' hp =>
        (hev hρ hc).bind fun v w hv =>
        indEq hM hb hap ht hp hv
  | quaternary o ha hb' hc hd =>
    refine (hev hρ ha).bind fun t t' ht => (hev hρ hb').bind fun p p' hp =>
      (hev hρ hc).bind fun v w hv =>
      (hev hρ hd).bind fun s s' hs => ?_
    cases o with
    | whichNat => exact whichNat hM hb hap ht hp hv hs
    | iterNat => exact iterNat hM hb hap hp hv hs hf ht
    | recNat => exact recNat hM hb hap hp hv hs hf ht
    | recList => exact recList hM hb hap hp hv hs hf ht
    | indNat => exact indNat hM hb hap hp hv hs hf ht
    | indList => exact indList hM hb hap hp hv hs hf ht
    | indEither => exact indEither hM hb hap ht hp hv hs
  | indVec hl ht hm hbase hs =>
    exact (hev hρ ht).bind fun t t' ht => (hev hρ hl).bind fun l l' hl =>
      (hev hρ hm).bind fun p p' hp =>
      (hev hρ hbase).bind fun v w hv => (hev hρ hs).bind fun s s' hs =>
        indVec hM hb hap hp hv hs hf hl ht

/-- What closures of the same shape, other than captured terms, give for arguments that are
alike. -/
theorem instantiate {apply apply' : Value → Value → Outcome Value}
    (hap : ∀ {f f' a a'}, M.value f f' → M.value a a' →
      K.Outcomes M.value (apply f a) (apply' f' a'))
    {c c' : Closure} (hc : M.Captures c c') {a a' : Value} (ha : M.value a a') :
    K.Outcomes M.value (c.instantiate apply a) (c'.instantiate apply' a') := by
  cases hc with
  | captured _ _ => exact Comparison.outcomes_broken _
  | constant hv => exact hv
  | indNatStep hm =>
    exact (hap hm ha).bind fun t t' ht => (hap hm (hM.ofHead (.unary .add1 ha))).bind
      fun r r' hr => hM.arrow hb.ih ht hr
  | indListStep he hm =>
    exact hM.ofHead (.quant .pi hb.es (hM.ofHead (.unary .list he))
      (hM.closure <| .indListStepTail hm ha))
  | indListStepTail hm hh =>
    exact (hap hm ha).bind fun t t' ht => (hap hm (hM.ofHead (.binary .listCons hh ha))).bind
      fun r r' hr => hM.arrow hb.ih ht hr
  | indEqMotive ht hl =>
    exact hM.arrow hb.p (hM.ofHead (.equal ht hl ha)) (hM.ofHead (.const .univ))
  | indVecMotive he =>
    exact hM.arrow hb.es (hM.ofHead (.binary .vec he ha)) (hM.ofHead (.const .univ))
  | indVecStep he hm =>
    exact hM.ofHead (.quant .pi hb.e he (hM.closure <| .indVecStepHead he hm ha))
  | indVecStepHead he hm hl =>
    exact hM.ofHead (.quant .pi hb.es (hM.ofHead (.binary .vec he hl))
      (hM.closure <| .indVecStepTail hm hl ha))
  | indVecStepTail hm hl hh =>
    refine (hap hm hl).bind fun f f' hf => (hap hf ha).bind fun t t' ht => ?_
    refine (hap hm (hM.ofHead (.unary .add1 hl))).bind fun g g' hg => ?_
    exact (hap hg (hM.ofHead (.binary .vecCons hh ha))).bind fun r r' hr => hM.arrow hb.ih ht hr
  | indEitherMethod side hm => exact hap hm (hM.inject side ha)

/-- One step of giving closures of the same shape their arguments. -/
theorem Captures.run_succ (hev : M.Evaluates n m)
    (hap : M.Applies (application K.left n) (application K.right m)) {c c' : Closure}
    (hc : M.Captures c c') {a a' : Value} (ha : M.value a a') :
    K.Outcomes M.value (c.run K.left (n + 1) a) (c'.run K.right (m + 1) a') := by
  have hother := instantiate hM hb hap.apply hc ha
  cases hc with
  | captured hbody hρ => exact hev (hρ.cons ha _ _) hbody
  | _ => exact hother

omit hb in
/-- One step of applying functions. -/
theorem apply_succ (hap : M.Applies (application K.left n) (application K.right m))
    {f f' a a' : Value} (hf : M.value f f') (ha : M.value a a') :
    K.Outcomes M.value (f.apply K.left (n + 1) a) (f'.apply K.right (m + 1) a') := by
  rw [Value.apply, Value.apply]
  refine (hM.now hf).bind fun v w h => ?_
  cases h with
  | lam _ hbody => exact hap.run hbody ha
  | neutral hty he =>
    refine (hM.now hty).bind fun ty ty' h => ?_
    cases h with
    | quant q hx hbase hfam =>
      cases q with
      | pi =>
        exact (hap.run hfam ha).bind fun r r' hr =>
          hM.ofHead (.neutral hr (hM.neutral <| .apply he ⟨hbase, ha⟩))
      | sigma => exact Comparison.outcomes_broken _
    | _ => exact Comparison.outcomes_broken _
  | _ => exact Comparison.outcomes_broken _

end Step

end Likeness

end PieChecker
