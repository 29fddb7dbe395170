import PieChecker.Proofs.Simulation.Outcome

set_option autoImplicit false

/-!
# Likenesses of values

A likeness is a correspondence between the values, stuck eliminations and closures of two runs.
Two values are alike if forcing them gives values with the same outermost constructor and parts
that are alike.

`Likeness.Closed` and `Likeness.Applies` collect what the eliminators and the evaluator ask of a
likeness, so that each of them is compared once, for all likenesses.
-/

namespace PieChecker

/-- A correspondence between the names of two runs. -/
abbrev NameRelation := String → String → Prop

/-- The correspondence below a binder: the two parameters correspond to each other and to
nothing else. -/
def NameRelation.push (σ : NameRelation) (x y : String) : NameRelation :=
  fun a b => (a = x ∧ b = y) ∨ (a ≠ x ∧ b ≠ y ∧ σ a b)

/-- Two core terms are equal up to the names of their binders, and their free names
correspond. -/
inductive Core.Related (K : Comparison) : NameRelation → Core → Core → Prop where
  | var {σ : NameRelation} {x y : String} (h : σ x y) : Related K σ (.var x) (.var y)
  | const {σ : NameRelation} (c : Const) : Related K σ (.const c) (.const c)
  | quote {σ : NameRelation} (a : String) : Related K σ (.quote a) (.quote a)
  | todo {σ : NameRelation} {s t : Span} {ty ty' : Core} (hs : K.span s t)
      (hty : Related K σ ty ty') :
    Related K σ (.todo s ty) (.todo t ty')
  | quant {σ : NameRelation} (q : Quantifier) {x y : String} {base base' family family' : Core}
      (hx : K.binder x y)
    (hb : Related K σ base base') (hf : Related K (σ.push x y) family family') :
    Related K σ (.quant q x base family) (.quant q y base' family')
  | lam {σ : NameRelation} {x y : String} {body body' : Core} (hx : K.binder x y)
    (hb : Related K (σ.push x y) body body') : Related K σ (.lam x body) (.lam y body')
  | unary {σ : NameRelation} (o : Unary) {a a' : Core} (ha : Related K σ a a') :
    Related K σ (.unary o a) (.unary o a')
  | binary {σ : NameRelation} (o : Core.Binary) {a a' b b' : Core} (ha : Related K σ a a')
      (hb : Related K σ b b') :
    Related K σ (.binary o a b) (.binary o a' b')
  | ternary {σ : NameRelation} (o : Core.Ternary) {a a' b b' c c' : Core}
      (ha : Related K σ a a')
    (hb : Related K σ b b') (hc : Related K σ c c') :
    Related K σ (.ternary o a b c) (.ternary o a' b' c')
  | quaternary {σ : NameRelation} (o : Core.Quaternary) {a a' b b' c c' d d' : Core}
      (ha : Related K σ a a')
    (hb : Related K σ b b') (hc : Related K σ c c') (hd : Related K σ d d') :
    Related K σ (.quaternary o a b c d) (.quaternary o a' b' c' d')
  | indVec {σ : NameRelation} {l l' t t' m m' b b' s s' : Core} (hl : Related K σ l l')
      (ht : Related K σ t t')
    (hm : Related K σ m m') (hb : Related K σ b b') (hs : Related K σ s s') :
    Related K σ (.indVec l t m b s) (.indVec l' t' m' b' s')

/-- A correspondence between the values of two runs. -/
structure Likeness (K : Comparison) where
  value : Value → Value → Prop
  neutral : Neutral → Neutral → Prop
  closure : Closure → Closure → Prop

namespace Likeness

variable {K : Comparison}

/-- Values with types that are alike, as the operands of stuck eliminations are kept. -/
def normal (M : Likeness K) : Normal → Normal → Prop
  | ⟨ty, v⟩, ⟨ty', v'⟩ => M.value ty ty' ∧ M.value v v'

/-- Two forced values have the same outermost constructor, and their parts are alike. -/
inductive Head (M : Likeness K) : Value → Value → Prop where
  | neutral {ty ty' : Value} {e e' : Neutral} (hty : M.value ty ty') (he : M.neutral e e') :
    Head M (.neutral ty e) (.neutral ty' e')
  | const (c : Const) : Head M (.const c) (.const c)
  | quote (a : String) : Head M (.quote a) (.quote a)
  | quant (q : Quantifier) {x y : String} {base base' : Value} {family family' : Closure}
      (hx : K.binder x y)
    (hb : M.value base base') (hf : M.closure family family') :
    Head M (.quant q x base family) (.quant q y base' family')
  | lam {x y : String} {body body' : Closure} (hx : K.binder x y) (hb : M.closure body body') :
    Head M (.lam x body) (.lam y body')
  | unary (o : Value.Unary) {a a' : Value} (ha : M.value a a') :
      Head M (.unary o a) (.unary o a')
  | binary (o : Value.Binary) {a a' b b' : Value} (ha : M.value a a') (hb : M.value b b') :
    Head M (.binary o a b) (.binary o a' b')
  | equal {ty ty' lhs lhs' rhs rhs' : Value} (hty : M.value ty ty') (hl : M.value lhs lhs')
      (hr : M.value rhs rhs') :
    Head M (.equal ty lhs rhs) (.equal ty' lhs' rhs')

/-- Two stuck eliminations are by the same eliminator, and their parts are alike. A `trans` that
waits for one operand has a reflexive equality as the other one. -/
inductive Eliminations (M : Likeness K) : Neutral → Neutral → Prop where
  | project (o : Neutral.Projection) {e e' : Neutral} (he : M.neutral e e') :
    Eliminations M (.project o e) (.project o e')
  | apply {e e' : Neutral} {a a' : Normal} (he : M.neutral e e') (ha : M.normal a a') :
    Eliminations M (.apply e a) (.apply e' a')
  | recursor (o : Neutral.Recursor) {e e' : Neutral} {b b' s s' : Normal} (he : M.neutral e e')
      (hb : M.normal b b')
    (hs : M.normal s s') : Eliminations M (.recursor o e b s) (.recursor o e' b' s')
  | transport (o : Neutral.Transport) {e e' : Neutral} {m m' b b' : Normal}
      (he : M.neutral e e')
    (hm : M.normal m m') (hb : M.normal b b') :
    Eliminations M (.transport o e m b) (.transport o e' m' b')
  | induct (o : Neutral.Inductor) {e e' : Neutral} {m m' b b' s s' : Normal}
      (he : M.neutral e e')
    (hm : M.normal m m') (hb : M.normal b b') (hs : M.normal s s') :
    Eliminations M (.induct o e m b s) (.induct o e' m' b' s')
  | indAbsurd {e e' : Neutral} {m m' : Normal} (he : M.neutral e e') (hm : M.normal m m') :
    Eliminations M (.indAbsurd e m) (.indAbsurd e' m')
  | cong {e e' : Neutral} {r r' f f' : Normal} (he : M.neutral e e') (hr : M.normal r r')
      (hf : M.normal f f') :
    Eliminations M (.cong e r f) (.cong e' r' f')
  | transLeft {e e' : Neutral} {space space' point point' : Value} (he : M.neutral e e')
      (hs : M.value space space')
    (hp : M.value point point') :
    Eliminations M (.transLeft e (Value.reflexive space point))
      (.transLeft e' (Value.reflexive space' point'))
  | transRight {space space' point point' : Value} {e e' : Neutral} (hs : M.value space space')
    (hp : M.value point point') (he : M.neutral e e') :
    Eliminations M (.transRight (Value.reflexive space point) e)
      (.transRight (Value.reflexive space' point') e')
  | transBoth {e e' f f' : Neutral} (he : M.neutral e e') (hf : M.neutral f f') :
    Eliminations M (.transBoth e f) (.transBoth e' f')
  | indVecTarget {l l' : Normal} {e e' : Neutral} {m m' b b' s s' : Normal} (hl : M.normal l l')
    (he : M.neutral e e') (hm : M.normal m m') (hb : M.normal b b') (hs : M.normal s s') :
    Eliminations M (.indVecTarget l e m b s) (.indVecTarget l' e' m' b' s')
  | indVecBoth {l l' e e' : Neutral} {m m' b b' s s' : Normal} (hl : M.neutral l l')
      (he : M.neutral e e')
    (hm : M.normal m m') (hb : M.normal b b') (hs : M.normal s s') :
    Eliminations M (.indVecBoth l e m b s) (.indVecBoth l' e' m' b' s')

/-- Two environments have values that are alike for corresponding names. -/
structure Environments (M : Likeness K) (σ : NameRelation) (ρ ρ' : Environment) : Prop where
  /-- A name has a value if the corresponding one has. -/
  isSome_eq : ∀ a b, σ a b → (ρ.lookup a).isSome = (ρ'.lookup b).isSome
  /-- Names without a value correspond only where both runs may stop at one. -/
  unbound : ∀ a b, σ a b → ρ.lookup a = none → K.agreed .unbound
  value : ∀ a b v w, σ a b → ρ.lookup a = some v → ρ'.lookup b = some w → M.value v w

/-- Two closures are of the same shape, and their parts are alike. -/
inductive Captures (M : Likeness K) : Closure → Closure → Prop where
  | captured {σ : NameRelation} {ρ ρ' : Environment} {x y : String} {body body' : Core}
    (hbody : Core.Related K (σ.push x y) body body') (hρ : M.Environments σ ρ ρ') :
    Captures M (.captured ρ x body) (.captured ρ' y body')
  | constant {v v' : Value} (hv : M.value v v') : Captures M (.constant v) (.constant v')
  | indNatStep {m m' : Value} (hm : M.value m m') : Captures M (.indNatStep m) (.indNatStep m')
  | indListStep {e e' m m' : Value} (he : M.value e e') (hm : M.value m m') :
    Captures M (.indListStep e m) (.indListStep e' m')
  | indListStepTail {m m' h h' : Value} (hm : M.value m m') (hh : M.value h h') :
    Captures M (.indListStepTail m h) (.indListStepTail m' h')
  | indEqMotive {t t' l l' : Value} (ht : M.value t t') (hl : M.value l l') :
    Captures M (.indEqMotive t l) (.indEqMotive t' l')
  | indVecMotive {e e' : Value} (he : M.value e e') :
      Captures M (.indVecMotive e) (.indVecMotive e')
  | indVecStep {e e' m m' : Value} (he : M.value e e') (hm : M.value m m') :
    Captures M (.indVecStep e m) (.indVecStep e' m')
  | indVecStepHead {e e' m m' l l' : Value} (he : M.value e e') (hm : M.value m m')
      (hl : M.value l l') :
    Captures M (.indVecStepHead e m l) (.indVecStepHead e' m' l')
  | indVecStepTail {m m' l l' h h' : Value} (hm : M.value m m') (hl : M.value l l')
      (hh : M.value h h') :
    Captures M (.indVecStepTail m l h) (.indVecStepTail m' l' h')
  | indEitherMethod (side : Side) {m m' : Value} (hm : M.value m m') :
    Captures M (.indEitherMethod side m) (.indEitherMethod side m')

/-- What evaluation asks of a likeness, apart from functions and closures. -/
structure Closed (M : Likeness K) : Prop where
  /-- Values are alike if forcing them gives values that are. -/
  value_iff : ∀ {v w}, M.value v w ↔ K.Outcomes M.Head v.now w.now
  neutral : ∀ {e e'}, M.Eliminations e e' → M.neutral e e'
  closure : ∀ {c c'}, M.Captures c c' → M.closure c c'
  todo : ∀ {s t ty ty'}, K.span s t → M.value ty ty' →
    M.Head (.neutral ty (.todo s ty)) (.neutral ty' (.todo t ty'))

/-- Two ways of applying functions and closures give values that are alike. -/
structure Applies (M : Likeness K) (ap ap' : Application) : Prop where
  apply : ∀ {f f' a a'}, M.value f f' → M.value a a' →
    K.Outcomes M.value (ap.apply f a) (ap'.apply f' a')
  run : ∀ {c c' a a'}, M.closure c c' → M.value a a' →
    K.Outcomes M.value (ap.run c a) (ap'.run c' a')

namespace Head

variable {M : Likeness K}

/-- A value with an outermost constructor is not delayed. -/
theorem now_left {v w : Value} (h : M.Head v w) : v.now = .ok v := by
  cases h <;> rfl

theorem now_right {v w : Value} (h : M.Head v w) : w.now = .ok w := by
  cases h <;> rfl

end Head

namespace Closed

variable {M : Likeness K}

theorem now (hM : M.Closed) {v w : Value} (h : M.value v w) : K.Outcomes M.Head v.now w.now :=
  hM.value_iff.1 h

theorem ofHead (hM : M.Closed) {v w : Value} (h : M.Head v w) : M.value v w := by
  rw [hM.value_iff, h.now_left, h.now_right]
  exact h

/-- Delayed values are alike if what they delay is. -/
theorem suspend (hM : M.Closed) {r s : Outcome Value} (h : K.Outcomes M.value r s) :
    M.value (.suspend fun _ => r) (.suspend fun _ => s) := by
  rw [hM.value_iff, Value.now_suspend, Value.now_suspend]
  exact h.bind fun v w hvw => hM.now hvw

theorem suspend_right (hM : M.Closed) {v : Value} {s : Outcome Value}
    (h : K.Outcomes M.value (.ok v) s) :
    M.value v (.suspend fun _ => s) := by
  rw [hM.value_iff, Value.now_suspend]
  have hv : v.now = (.ok v : Outcome Value) >>= Value.now := rfl
  rw [hv]
  exact h.bind fun v w hvw => hM.now hvw

theorem suspend_left (hM : M.Closed) {r : Outcome Value} {w : Value}
    (h : K.Outcomes M.value r (.ok w)) :
    M.value (.suspend fun _ => r) w := by
  rw [hM.value_iff, Value.now_suspend]
  have hw : w.now = (.ok w : Outcome Value) >>= Value.now := rfl
  rw [hw]
  exact h.bind fun v w hvw => hM.now hvw

end Closed

end Likeness

end PieChecker
