import PieChecker.Value.Evaluation

set_option autoImplicit false

/-!
# Results that more fuel does not change

The meaning of closed terms is what they evaluate to if nothing is delayed. A computation with
fuel settles on a result if it has that result for every sufficient amount of fuel. What a term,
an application or a closure settles on is described here by rules that do not mention fuel, one
for each way to compute.

The eliminators with cases are described by relations: `NatCase`, `NatIter`, `NatRec`,
`ListRec`, `VecRec` and `SumCase` say what a case distinction, an iteration or a recursion gives
for a closed target.
-/

namespace PieChecker

/-- With enough fuel the computation gives the result, and more fuel does not change it. -/
def Settles {α : Type} (run : Nat → Outcome α) (a : α) : Prop := ∃ n, ∀ m, n ≤ m → run m = .ok a

namespace Settles

variable {α β : Type}

theorem unique {run : Nat → Outcome α} {a b : α} (ha : Settles run a)
    (hb : Settles run b) : a = b := by
  obtain ⟨n, hn⟩ := ha
  obtain ⟨m, hm⟩ := hb
  have h : (.ok a : Outcome α) = .ok b := by
    rw [← hn _ (Nat.le_max_left n m), ← hm _ (Nat.le_max_right n m)]
  exact Except.ok.inj h

theorem pure (a : α) : Settles (fun _ => .ok a) a := ⟨0, fun _ _ => rfl⟩

/-- One unit of fuel is spent on the first step. -/
theorem of_succ {run : Nat → Outcome α} {a : α} (h : Settles (fun n => run (n + 1)) a) :
    Settles run a := by
  obtain ⟨n, hn⟩ := h
  refine ⟨n + 1, fun m hm => ?_⟩
  obtain ⟨k, rfl⟩ : ∃ k, m = k + 1 := ⟨m - 1, by omega⟩
  exact hn k (by omega)

theorem bind {run : Nat → Outcome α} {next : Nat → α → Outcome β} {a : α} {b : β}
    (h : Settles run a) (hnext : Settles (fun n => next n a) b) :
    Settles (fun n => run n >>= next n) b := by
  obtain ⟨n, hn⟩ := h
  obtain ⟨m, hm⟩ := hnext
  refine ⟨max n m, fun k hk => ?_⟩
  show run k >>= next k = .ok b
  rw [hn k (by omega)]
  exact hm k (by omega)

end Settles

/-- The same for a recursion with fuel of its own beside that of the steps. -/
def SettlesDeep {α : Type} (run : Nat → Nat → Outcome α) (a : α) : Prop :=
  ∃ k, ∀ n m, k ≤ n → k ≤ m → run n m = .ok a

namespace SettlesDeep

variable {α β : Type}

theorem pure (a : α) : SettlesDeep (fun _ _ => .ok a) a := ⟨0, fun _ _ _ _ => rfl⟩

theorem of_settles {run : Nat → Outcome α} {a : α} (h : Settles run a) :
    SettlesDeep (fun n _ => run n) a := by
  obtain ⟨k, hk⟩ := h
  exact ⟨k, fun n _ hn _ => hk n hn⟩

theorem of_succ {run : Nat → Nat → Outcome α} {a : α}
    (h : SettlesDeep (fun n m => run n (m + 1)) a) :
    SettlesDeep run a := by
  obtain ⟨k, hk⟩ := h
  refine ⟨k + 1, fun n m hn hm => ?_⟩
  obtain ⟨m, rfl⟩ : ∃ m', m = m' + 1 := ⟨m - 1, by omega⟩
  exact hk n m (by omega) (by omega)

theorem bind {run : Nat → Nat → Outcome α} {next : Nat → Nat → α → Outcome β} {a : α} {b : β}
    (h : SettlesDeep run a) (hnext : SettlesDeep (fun n m => next n m a) b) :
    SettlesDeep (fun n m => run n m >>= next n m) b := by
  obtain ⟨k, hk⟩ := h
  obtain ⟨l, hl⟩ := hnext
  refine ⟨max k l, fun n m hn hm => ?_⟩
  show run n m >>= next n m = .ok b
  rw [hk n m (by omega) (by omega)]
  exact hl n m (by omega) (by omega)

theorem settles {run : Nat → Nat → Outcome α} {a : α} (h : SettlesDeep run a) :
    Settles (fun n => run n n) a := by
  obtain ⟨k, hk⟩ := h
  exact ⟨k, fun n hn => hk n n hn hn⟩

end SettlesDeep

/-- Applications that delay nothing. -/
def Application.strict (fuel : Nat) : Application :=
  ⟨Value.apply .atOnce fuel, Closure.run .atOnce fuel⟩

/-- The result of applying a function, if nothing is delayed. -/
def Value.Applies (function argument result : Value) : Prop :=
  Settles (fun n => function.apply .atOnce n argument) result

/-- The result of giving a closure its argument, if nothing is delayed. -/
def Closure.Runs (closure : Closure) (argument result : Value) : Prop :=
  Settles (fun n => closure.run .atOnce n argument) result

/-- The value of a term, if nothing is delayed. -/
def Core.Evaluates (γ : Environment) (term : Core) (value : Value) : Prop :=
  Settles (fun n => term.evaluate .atOnce n γ) value

namespace Value

/-! ## Functions and closures -/

theorem Applies.lam {x : String} {body : Closure} {a r : Value} (h : body.Runs a r) :
    (Value.lam x body).Applies a r :=
  Settles.of_succ h

/-- So many times `add1` around `zero`. -/
inductive IsNumeral : Value → Prop where
  | zero : IsNumeral .zero
  | add1 {n : Value} (h : IsNumeral n) : IsNumeral (.add1 n)

end Value

namespace Closure.Runs

open Value

theorem captured {γ : Environment} {x : String} {body : Core} {a r : Value}
    (h : body.Evaluates ((x, a) :: γ) r) :
    (Closure.captured γ x body).Runs a r :=
  Settles.of_succ h

theorem constant (a r : Value) : (Closure.constant r).Runs a r :=
  Settles.of_succ (Settles.pure r)

theorem indNatStep {motive a h r : Value} (hh : motive.Applies a h)
    (hr : motive.Applies (.add1 a) r) :
    (Closure.indNatStep motive).Runs a (.arrow "ih" h r) :=
  Settles.of_succ (hh.bind (hr.bind (Settles.pure _)))

theorem indListStep (entry motive a : Value) :
    (Closure.indListStep entry motive).Runs a
    (.pi "es" (.list entry) (.indListStepTail motive a)) :=
  Settles.of_succ (Settles.pure _)

theorem indListStepTail {motive head a h r : Value} (hh : motive.Applies a h)
    (hr : motive.Applies (.listCons head a) r) :
    (Closure.indListStepTail motive head).Runs a (.arrow "ih" h r) :=
  Settles.of_succ (hh.bind (hr.bind (Settles.pure _)))

theorem indEqMotive (ty lhs a : Value) :
    (Closure.indEqMotive ty lhs).Runs a (.arrow "p" (.equal ty lhs a) .univ) :=
  Settles.of_succ (Settles.pure _)

theorem indVecMotive (entry a : Value) :
    (Closure.indVecMotive entry).Runs a (.arrow "es" (.vec entry a) .univ) :=
  Settles.of_succ (Settles.pure _)

theorem indVecStep (entry motive a : Value) :
    (Closure.indVecStep entry motive).Runs a (.pi "e" entry (.indVecStepHead entry motive a)) :=
  Settles.of_succ (Settles.pure _)

theorem indVecStepHead (entry motive length a : Value) :
    (Closure.indVecStepHead entry motive length).Runs a
      (.pi "es" (.vec entry length) (.indVecStepTail motive length a)) :=
  Settles.of_succ (Settles.pure _)

theorem indVecStepTail {motive length head a m m' h r : Value} (hm : motive.Applies length m)
    (hh : m.Applies a h) (hm' : motive.Applies (.add1 length) m')
    (hr : m'.Applies (.vecCons head a) r) :
    (Closure.indVecStepTail motive length head).Runs a (.arrow "ih" h r) :=
  Settles.of_succ (hm.bind (hh.bind (hm'.bind (hr.bind (Settles.pure _)))))

theorem indEitherMethod {side : Side} {motive a r : Value}
    (h : motive.Applies (.inject side a) r) :
    (Closure.indEitherMethod side motive).Runs a r :=
  Settles.of_succ h

end Closure.Runs

/-! ## Eliminating closed values -/

namespace Value

/-- The result of a case distinction on a number. -/
inductive NatCase (base step : Value) : Value → Value → Prop where
  | zero : NatCase base step .zero base
  | add1 {n r : Value} (h : step.Applies n r) : NatCase base step (.add1 n) r

/-- The result of applying a step as often as a number says. -/
inductive NatIter (base step : Value) : Value → Value → Prop where
  | zero : NatIter base step .zero base
  | add1 {n r r' : Value} (h : NatIter base step n r) (hs : step.Applies r r') :
      NatIter base step (.add1 n) r'

/-- The result of a recursion over the numbers below a number. -/
inductive NatRec (base step : Value) : Value → Value → Prop where
  | zero : NatRec base step .zero base
  | add1 {n r s r' : Value} (h : NatRec base step n r) (hs : step.Applies n s)
      (hr : s.Applies r r') :
    NatRec base step (.add1 n) r'

/-- The result of a recursion over a list. -/
inductive ListRec (base step : Value) : Value → Value → Prop where
  | nil : ListRec base step (.const .nil) base
  | cons {a as r s s' r' : Value} (h : ListRec base step as r) (hs : step.Applies a s)
      (hs' : s.Applies as s')
    (hr : s'.Applies r r') : ListRec base step (.listCons a as) r'

/-- The result of a case distinction on a sum. -/
inductive SumCase (left right : Value) : Value → Value → Prop where
  | left {a r : Value} (h : left.Applies a r) : SumCase left right (.unary .left a) r
  | right {a r : Value} (h : right.Applies a r) : SumCase left right (.unary .right a) r

/-- The result of a recursion over a list of known length. -/
inductive VecRec (base step : Value) : Value → Value → Value → Prop where
  | nil : VecRec base step .zero (.const .vecnil) base
  | cons {n a as r s₁ s₂ s₃ r' : Value} (h : VecRec base step n as r) (hs₁ : step.Applies n s₁)
      (hs₂ : s₁.Applies a s₂)
    (hs₃ : s₂.Applies as s₃) (hr : s₃.Applies r r') :
    VecRec base step (.add1 n) (.vecCons a as) r'

section Settling

variable {base step n w : Value}

theorem NatCase.settles (h : NatCase base step n w) (result : Value) :
    Settles (fun k => n.whichNat (.strict k) result base step) w := by
  cases h with
  | zero => exact Settles.pure _
  | add1 h => exact h

theorem NatIter.settles (h : NatIter base step n w) (result : Value) :
    SettlesDeep (fun k m => iterNat (.strict k) result base step m n) w := by
  induction h with
  | zero => exact .of_succ (.pure _)
  | add1 _ hs ih => exact .of_succ (ih.bind (.of_settles hs))

theorem NatRec.settles (h : NatRec base step n w) (result : Value) :
    SettlesDeep (fun k m => recNat (.strict k) result base step m n) w := by
  induction h with
  | zero => exact .of_succ (.pure _)
  | add1 _ hs hr ih =>
    exact .of_succ (ih.bind ((SettlesDeep.of_settles hs).bind (.of_settles hr)))

theorem NatRec.settles_indNat (h : NatRec base step n w) (motive : Value) :
    SettlesDeep (fun k m => indNat (.strict k) motive base step m n) w := by
  induction h with
  | zero => exact .of_succ (.pure _)
  | add1 _ hs hr ih =>
    exact .of_succ (ih.bind ((SettlesDeep.of_settles hs).bind (.of_settles hr)))

theorem ListRec.settles {target : Value} (h : ListRec base step target w) (result : Value) :
    SettlesDeep (fun k m => recList (.strict k) result base step m target) w := by
  induction h with
  | nil => exact .of_succ (.pure _)
  | cons _ hs hs' hr ih =>
    exact .of_succ
      (ih.bind ((SettlesDeep.of_settles hs).bind
        ((SettlesDeep.of_settles hs').bind (.of_settles hr))))

theorem ListRec.settles_indList {target : Value} (h : ListRec base step target w)
    (motive : Value) :
    SettlesDeep (fun k m => indList (.strict k) motive base step m target) w := by
  induction h with
  | nil => exact .of_succ (.pure _)
  | cons _ hs hs' hr ih =>
    exact .of_succ
      (ih.bind ((SettlesDeep.of_settles hs).bind
        ((SettlesDeep.of_settles hs').bind (.of_settles hr))))

theorem VecRec.settles {target : Value} (h : VecRec base step n target w) (motive : Value) :
    SettlesDeep (fun k m => indVec (.strict k) motive base step m n target) w := by
  induction h with
  | nil => exact .of_succ (.pure _)
  | cons _ hs₁ hs₂ hs₃ hr ih =>
    exact .of_succ
      (ih.bind ((SettlesDeep.of_settles hs₁).bind
        ((SettlesDeep.of_settles hs₂).bind
          ((SettlesDeep.of_settles hs₃).bind (.of_settles hr)))))

theorem SumCase.settles {left right target : Value} (h : SumCase left right target w)
    (motive : Value) :
    Settles (fun k => target.indEither (.strict k) motive left right) w := by
  cases h with
  | left h => exact h
  | right h => exact h

/-! Each of these relations gives one result at most. -/

theorem Applies.unique {f a r r' : Value} (h : f.Applies a r) (h' : f.Applies a r') : r = r' :=
  Settles.unique h h'

theorem NatCase.unique {r r' : Value} (h : NatCase base step n r)
    (h' : NatCase base step n r') : r = r' :=
  (h.settles base).unique (h'.settles base)

theorem NatIter.unique {r r' : Value} (h : NatIter base step n r)
    (h' : NatIter base step n r') : r = r' :=
  (h.settles base).settles.unique (h'.settles base).settles

theorem NatRec.unique {r r' : Value} (h : NatRec base step n r) (h' : NatRec base step n r') :
    r = r' :=
  (h.settles base).settles.unique (h'.settles base).settles

theorem ListRec.unique {target r r' : Value} (h : ListRec base step target r)
    (h' : ListRec base step target r') :
    r = r' :=
  (h.settles base).settles.unique (h'.settles base).settles

theorem SumCase.unique {left right target r r' : Value} (h : SumCase left right target r)
    (h' : SumCase left right target r') : r = r' :=
  (h.settles target).unique (h'.settles target)

theorem VecRec.unique {target r r' : Value} (h : VecRec base step n target r)
    (h' : VecRec base step n target r') :
    r = r' :=
  (h.settles base).settles.unique (h'.settles base).settles

end Settling

end Value

/-! ## Terms -/

namespace Core.Evaluates

open Value

variable {γ : Environment} {a b c d : Core} {va vb vc vd w : Value}

theorem var {x : String} (h : γ.lookup x = some va) : (Core.var x).Evaluates γ va := by
  refine Settles.of_succ ?_
  simp only [Core.evaluate, h]
  exact Settles.pure va

theorem const (k : Const) : (Core.const k).Evaluates γ (.const k) :=
  Settles.of_succ (Settles.pure _)

theorem quote (q : String) : (Core.quote q).Evaluates γ (.quote q) :=
  Settles.of_succ (Settles.pure _)

theorem quant (q : Quantifier) (x : String) (hbase : a.Evaluates γ va) (family : Core) :
    (Core.quant q x a family).Evaluates γ (.quant q x va (.captured γ x family)) :=
  Settles.of_succ (hbase.bind (Settles.pure _))

theorem lam (x : String) (body : Core) :
    (Core.lam x body).Evaluates γ (.lam x (.captured γ x body)) :=
  Settles.of_succ (Settles.pure _)

theorem the (ty : Core) (h : b.Evaluates γ w) : (Core.the ty b).Evaluates γ w :=
  Settles.of_succ h

theorem apply (ha : a.Evaluates γ va) (hb : b.Evaluates γ vb) (h : va.Applies vb w) :
    (Core.apply a b).Evaluates γ w :=
  Settles.of_succ (ha.bind (hb.bind h))

theorem add1 (h : a.Evaluates γ va) : (Core.add1 a).Evaluates γ (.add1 va) :=
  Settles.of_succ (h.bind (Settles.pure _))

theorem list (h : a.Evaluates γ va) : (Core.unary .list a).Evaluates γ (.list va) :=
  Settles.of_succ (h.bind (Settles.pure _))

theorem same (h : a.Evaluates γ va) : (Core.unary .same a).Evaluates γ (.same va) :=
  Settles.of_succ (h.bind (Settles.pure _))

theorem left (h : a.Evaluates γ va) : (Core.unary .left a).Evaluates γ (.unary .left va) :=
  Settles.of_succ (h.bind (Settles.pure _))

theorem right (h : a.Evaluates γ va) : (Core.unary .right a).Evaluates γ (.unary .right va) :=
  Settles.of_succ (h.bind (Settles.pure _))

theorem cons (ha : a.Evaluates γ va) (hb : b.Evaluates γ vb) :
    (Core.binary .cons a b).Evaluates γ (.cons va vb) :=
  Settles.of_succ (ha.bind (hb.bind (Settles.pure _)))

theorem listCons (ha : a.Evaluates γ va) (hb : b.Evaluates γ vb) :
    (Core.binary .listCons a b).Evaluates γ (.listCons va vb) :=
  Settles.of_succ (ha.bind (hb.bind (Settles.pure _)))

theorem vec (ha : a.Evaluates γ va) (hb : b.Evaluates γ vb) :
    (Core.binary .vec a b).Evaluates γ (.vec va vb) :=
  Settles.of_succ (ha.bind (hb.bind (Settles.pure _)))

theorem vecCons (ha : a.Evaluates γ va) (hb : b.Evaluates γ vb) :
    (Core.binary .vecCons a b).Evaluates γ (.vecCons va vb) :=
  Settles.of_succ (ha.bind (hb.bind (Settles.pure _)))

theorem either (ha : a.Evaluates γ va) (hb : b.Evaluates γ vb) :
    (Core.binary .either a b).Evaluates γ (.either va vb) :=
  Settles.of_succ (ha.bind (hb.bind (Settles.pure _)))

theorem equal (ha : a.Evaluates γ va) (hb : b.Evaluates γ vb) (hc : c.Evaluates γ vc) :
    (Core.ternary .equal a b c).Evaluates γ (.equal va vb vc) :=
  Settles.of_succ (ha.bind (hb.bind (hc.bind (Settles.pure _))))

/-! On closed values, every eliminator finds a constructor. -/

theorem car (h : a.Evaluates γ (.cons va vb)) : (Core.unary .car a).Evaluates γ va :=
  Settles.of_succ (h.bind (Settles.pure _))

theorem cdr (h : a.Evaluates γ (.cons va vb)) : (Core.unary .cdr a).Evaluates γ vb :=
  Settles.of_succ (h.bind (Settles.pure _))

theorem symm (h : a.Evaluates γ (.same va)) : (Core.unary .symm a).Evaluates γ (.same va) :=
  Settles.of_succ (h.bind (Settles.pure _))

theorem head (h : a.Evaluates γ (.vecCons va vb)) : (Core.unary .head a).Evaluates γ va :=
  Settles.of_succ (h.bind (Settles.pure _))

theorem tail (h : a.Evaluates γ (.vecCons va vb)) : (Core.unary .tail a).Evaluates γ vb :=
  Settles.of_succ (h.bind (Settles.pure _))

theorem trans (ha : a.Evaluates γ (.same va)) (hb : b.Evaluates γ (.same vb)) :
    (Core.binary .trans a b).Evaluates γ (.same va) :=
  Settles.of_succ (ha.bind (hb.bind (Settles.pure _)))

theorem replace (ha : a.Evaluates γ (.same va)) (hb : b.Evaluates γ vb)
    (hc : c.Evaluates γ vc) :
    (Core.ternary .replace a b c).Evaluates γ vc :=
  Settles.of_succ (ha.bind (hb.bind (hc.bind (Settles.pure _))))

theorem cong (ha : a.Evaluates γ (.same va)) (hb : b.Evaluates γ vb) (hc : c.Evaluates γ vc)
    (h : vc.Applies va w) :
    (Core.ternary .cong a b c).Evaluates γ (.same w) :=
  Settles.of_succ (ha.bind (hb.bind (hc.bind (h.bind (Settles.pure _)))))

theorem indEq (ha : a.Evaluates γ (.same va)) (hb : b.Evaluates γ vb) (hc : c.Evaluates γ vc) :
    (Core.ternary .indEq a b c).Evaluates γ vc :=
  Settles.of_succ (ha.bind (hb.bind (hc.bind (Settles.pure _))))

section Quaternary

variable {vn : Value}

theorem whichNat (ha : a.Evaluates γ vn) (hb : b.Evaluates γ vb) (hc : c.Evaluates γ vc)
    (hd : d.Evaluates γ vd) (h : NatCase vc vd vn w) :
    (Core.quaternary .whichNat a b c d).Evaluates γ w :=
  Settles.of_succ (ha.bind (hb.bind (hc.bind (hd.bind (h.settles vb)))))

theorem iterNat (ha : a.Evaluates γ vn) (hb : b.Evaluates γ vb) (hc : c.Evaluates γ vc)
    (hd : d.Evaluates γ vd) (h : NatIter vc vd vn w) :
    (Core.quaternary .iterNat a b c d).Evaluates γ w :=
  Settles.of_succ (ha.bind (hb.bind (hc.bind (hd.bind (h.settles vb).settles))))

theorem recNat (ha : a.Evaluates γ vn) (hb : b.Evaluates γ vb) (hc : c.Evaluates γ vc)
    (hd : d.Evaluates γ vd) (h : NatRec vc vd vn w) :
    (Core.quaternary .recNat a b c d).Evaluates γ w :=
  Settles.of_succ (ha.bind (hb.bind (hc.bind (hd.bind (h.settles vb).settles))))

theorem indNat (ha : a.Evaluates γ vn) (hb : b.Evaluates γ vb) (hc : c.Evaluates γ vc)
    (hd : d.Evaluates γ vd) (h : NatRec vc vd vn w) :
    (Core.quaternary .indNat a b c d).Evaluates γ w :=
  Settles.of_succ (ha.bind (hb.bind (hc.bind (hd.bind (h.settles_indNat vb).settles))))

theorem recList (ha : a.Evaluates γ va) (hb : b.Evaluates γ vb) (hc : c.Evaluates γ vc)
    (hd : d.Evaluates γ vd) (h : ListRec vc vd va w) :
    (Core.quaternary .recList a b c d).Evaluates γ w :=
  Settles.of_succ (ha.bind (hb.bind (hc.bind (hd.bind (h.settles vb).settles))))

theorem indList (ha : a.Evaluates γ va) (hb : b.Evaluates γ vb) (hc : c.Evaluates γ vc)
    (hd : d.Evaluates γ vd) (h : ListRec vc vd va w) :
    (Core.quaternary .indList a b c d).Evaluates γ w :=
  Settles.of_succ (ha.bind (hb.bind (hc.bind (hd.bind (h.settles_indList vb).settles))))

theorem indEither (ha : a.Evaluates γ va) (hb : b.Evaluates γ vb) (hc : c.Evaluates γ vc)
    (hd : d.Evaluates γ vd) (h : SumCase vc vd va w) :
    (Core.quaternary .indEither a b c d).Evaluates γ w :=
  Settles.of_succ (ha.bind (hb.bind (hc.bind (hd.bind (h.settles vb)))))

theorem indVec {l t m : Core} {vm vt : Value} (hl : l.Evaluates γ vn) (ht : t.Evaluates γ vt)
    (hm : m.Evaluates γ vm) (hb : b.Evaluates γ vb) (hc : c.Evaluates γ vc)
    (h : VecRec vb vc vn vt w) :
    (Core.indVec l t m b c).Evaluates γ w :=
  Settles.of_succ (ht.bind (hl.bind (hm.bind (hb.bind (hc.bind (h.settles vm).settles)))))

end Quaternary

end Core.Evaluates

end PieChecker
