import PieChecker.Proofs.EvaluatedValues

set_option autoImplicit false

/-!
# The free names of values

A name occurs free in a value if it is a variable that some elimination in the value waits for.
In a captured term only the names that its body mentions count: what the environment holds for
other names can never be reached.

Two runs that start from one value start from values that are alike, as soon as the free names
of the value correspond to themselves. This holds of every value, whether or not evaluation
gives it.
-/

namespace PieChecker

open Likeness

/-! ## Free names -/

/-- The stuck eliminations that a stuck elimination waits for. -/
def Neutral.targets : Neutral → List Neutral
  | var _ | todo _ _ => []
  | project _ e | apply e _ | recursor _ e _ _ | transport _ e _ _ | induct _ e _ _ _
  | indAbsurd e _ | cong e _ _
  | transLeft e _ | transRight _ e | indVecTarget _ e _ _ _ => [e]
  | transBoth e f | indVecBoth e f _ _ _ => [e, f]

/-- The values that a closure is made of, apart from the environment of a captured term. -/
def Closure.parts : Closure → List Value
  | captured _ _ _ => []
  | constant a | indNatStep a | indVecMotive a | indEitherMethod _ a => [a]
  | indListStep a b | indListStepTail a b | indEqMotive a b | indVecStep a b => [a, b]
  | indVecStepHead a b c | indVecStepTail a b c => [a, b, c]

mutual

/-- The name occurs free in a value. -/
inductive Value.Mentions (y : String) : Value → Prop where
  | part {v a : Value} (ha : a ∈ v.parts) (h : a.Mentions y) : v.Mentions y
  | stuck {ty : Value} {e : Neutral} (h : e.Mentions y) : (Value.neutral ty e).Mentions y
  | family {q : Quantifier} {x : String} {base : Value} {c : Closure} (h : c.Mentions y) :
    (Value.quant q x base c).Mentions y
  | body {x : String} {c : Closure} (h : c.Mentions y) : (Value.lam x c).Mentions y
  | delayed {result : Thunk Delayed} {v : Value} (hv : result.get = .value v)
      (h : v.Mentions y) :
    (Value.delay result).Mentions y

/-- The name occurs free in a stuck elimination. -/
inductive Neutral.Mentions (y : String) : Neutral → Prop where
  | var : (Neutral.var y).Mentions y
  | todo {span : Span} {ty : Value} (h : ty.Mentions y) : (Neutral.todo span ty).Mentions y
  | target {e f : Neutral} (hf : f ∈ e.targets) (h : f.Mentions y) : e.Mentions y
  | operand {e : Neutral} {a : Normal} {v : Value} (ha : a ∈ e.operands) (hv : v ∈ a.parts)
      (h : v.Mentions y) :
    e.Mentions y

/-- The name occurs free in a closure. -/
inductive Closure.Mentions (y : String) : Closure → Prop where
  | captured {ρ : Environment} {x z : String} {body : Core} {v : Value} (hz : z ≠ x)
      (hbody : body.mentions z = true)
    (hv : ρ.lookup z = some v) (h : v.Mentions y) : (Closure.captured ρ x body).Mentions y
  | part {c : Closure} {v : Value} (hv : v ∈ c.parts) (h : v.Mentions y) : c.Mentions y

end

theorem Value.not_mentions_const (y : String) (c : Const) : ¬(Value.const c).Mentions y := by
  intro h
  cases h with
  | part ha => cases ha

theorem Value.mentions_var_iff {x y : String} {ty : Value} : (Value.var x ty).Mentions y ↔
    y = x ∨ ty.Mentions y := by
  constructor
  · intro h
    cases h with
    | part ha h =>
      rw [List.mem_singleton.1 ha] at h
      exact Or.inr h
    | stuck h =>
      cases h with
      | var => exact Or.inl rfl
      | target hf => cases hf
      | operand ha => cases ha
  · rintro (rfl | h)
    · exact .stuck .var
    · exact .part (.head _) h

/-- The free names of a value correspond to themselves. -/
def Value.Within (β : NameRelation) (v : Value) : Prop := ∀ y, v.Mentions y → β y y

/-- The free names of a stuck elimination correspond to themselves. -/
def Neutral.Within (β : NameRelation) (e : Neutral) : Prop := ∀ y, e.Mentions y → β y y

/-- The free names of a closure correspond to themselves. -/
def Closure.Within (β : NameRelation) (c : Closure) : Prop := ∀ y, c.Mentions y → β y y

section Within

variable {β : NameRelation}

theorem Value.Within.part {v a : Value} (h : v.Within β) (ha : a ∈ v.parts) : a.Within β :=
  fun y hy => h y (.part ha hy)

theorem Neutral.Within.target {e f : Neutral} (h : e.Within β) (hf : f ∈ e.targets) :
    f.Within β :=
  fun y hy => h y (.target hf hy)

theorem Neutral.Within.operand {e : Neutral} {a : Normal} (h : e.Within β)
    (ha : a ∈ e.operands) :
    ∀ v ∈ a.parts, v.Within β :=
  fun _ hv y hy => h y (.operand ha hv hy)

theorem Closure.Within.part {c : Closure} {v : Value} (h : c.Within β) (hv : v ∈ c.parts) :
    v.Within β :=
  fun y hy => h y (.part hv hy)

end Within

/-! ## Every value is like itself -/

/-- A comparison that every value may be part of, also one that evaluation never gives. -/
structure Comparison.IsReflexive (K : Comparison) : Prop where
  binder : ∀ x, K.binder x x
  span : ∀ s, K.span s s
  agreed : ∀ s, K.agreed s
  anyOperand : K.anyOperand

section Itself

variable {K : Comparison} {β : NameRelation}

/-- A value is like itself if what it is forced to is. -/
theorem renamed_of_now (hK : K.IsReflexive) {v : Value}
    (h : ∀ w, v.now = .ok w → (renamed K β).value w w) :
    (renamed K β).value v v := by
  rw [renamed_closed.value_iff]
  cases hv : v.now with
  | error s => exact Compared.of_errors ⟨rfl, hK.agreed s⟩
  | ok w =>
    have hhead := renamed_closed.now (h w hv)
    rw [Value.now_of_now hv] at hhead
    exact hhead

/-- A captured term is like itself if the values of the names that its body mentions are. -/
theorem captures_itself (hK : K.IsReflexive) {ρ : Environment} {x : String} {body : Core}
    (h : ∀ z v, z ≠ x → body.mentions z = true → ρ.lookup z = some v →
      (renamed K β).value v v) :
    (renamed K β).Captures (.captured ρ x body) (.captured ρ x body) := by
  refine .captured (σ := fun a b => a = b ∧ a ≠ x ∧ body.mentions a = true) ?_ ⟨?_, ?_, ?_⟩
  · refine Core.Related.refl hK.binder hK.span fun y hy => ?_
    by_cases hyx : y = x
    · exact Or.inl ⟨hyx, hyx⟩
    · exact Or.inr ⟨hyx, hyx, rfl, hyx, hy⟩
  · rintro a _ ⟨rfl, _⟩
    rfl
  · intro _ _ _ _
    exact hK.agreed .unbound
  · rintro a _ v w ⟨rfl, hax, hbody⟩ hv hw
    obtain rfl : v = w := Option.some.inj (hv.symm.trans hw)
    exact h a v hax hbody hv

mutual

/-- A value is like itself if its free names correspond to themselves. -/
theorem Value.Within.itself (hK : K.IsReflexive) :
    ∀ {v : Value}, v.Within β → (renamed K β).value v v
  | .neutral _ e, h => by
    have he : e.Within β := fun y hy => h y (.stuck hy)
    exact renamed_closed.ofHead (.neutral ((h.part (.head _)).itself hK) (he.itself hK))
  | .delay ⟨fn⟩, h => by
    refine renamed_of_now hK fun w hw => ?_
    have hget := Value.get_of_now_delay hw
    exact Delayed.itself hK (fn ()) hget fun y hy => h y (.delayed hget hy)
  | .const c, _ => renamed_closed.ofHead (.const c)
  | .quote a, _ => renamed_closed.ofHead (.quote a)
  | .quant q x _ family, h => by
    have hfamily : family.Within β := fun y hy => h y (.family hy)
    exact renamed_closed.ofHead (.quant q (hK.binder x) ((h.part (.head _)).itself hK)
      (hfamily.itself hK))
  | .lam x body, h => by
    have hbody : body.Within β := fun y hy => h y (.body hy)
    exact renamed_closed.ofHead (.lam (hK.binder x) (hbody.itself hK))
  | .unary o _, h => renamed_closed.ofHead (.unary o ((h.part (.head _)).itself hK))
  | .binary o _ _, h =>
    renamed_closed.ofHead (.binary o ((h.part (.head _)).itself hK)
      ((h.part (.tail _ (.head _))).itself hK))
  | .equal _ _ _, h =>
    renamed_closed.ofHead (.equal ((h.part (.head _)).itself hK)
      ((h.part (.tail _ (.head _))).itself hK)
      ((h.part (.tail _ (.tail _ (.head _)))).itself hK))

theorem Delayed.itself (hK : K.IsReflexive) :
    ∀ (d : Delayed) {w : Value}, d = .value w → w.Within β → (renamed K β).value w w
  | .value v, w, hw, h => by
    cases hw
    exact h.itself hK

theorem Normal.itself (hK : K.IsReflexive) :
    ∀ {a : Normal}, (∀ v ∈ a.parts, v.Within β) → (renamed K β).normal a a
  | ⟨ty, v⟩, h => ⟨(h ty (.head _)).itself hK, (h v (.tail _ (.head _))).itself hK⟩

/-- A stuck elimination is like itself if its free names correspond to themselves. -/
theorem Neutral.Within.itself (hK : K.IsReflexive) :
    ∀ {e : Neutral}, e.Within β → (renamed K β).neutral e e
  | .var x, h => rule_below_renamed.neutral (.var (h x .var))
  | .todo span ty, h => by
    have hty : ty.Within β := fun y hy => h y (.todo hy)
    exact rule_below_renamed.neutral (.todo (hK.span span) (hty.itself hK))
  | .project o _, h => renamed_closed.neutral (.project o ((h.target (.head _)).itself hK))
  | .apply _ _, h =>
    renamed_closed.neutral (.apply ((h.target (.head _)).itself hK)
      (Normal.itself hK (h.operand (.head _))))
  | .recursor o _ _ _, h =>
    renamed_closed.neutral (.recursor o ((h.target (.head _)).itself hK)
      (Normal.itself hK (h.operand (.head _)))
      (Normal.itself hK (h.operand (.tail _ (.head _)))))
  | .transport o _ _ _, h =>
    renamed_closed.neutral (.transport o ((h.target (.head _)).itself hK)
      (Normal.itself hK (h.operand (.head _)))
      (Normal.itself hK (h.operand (.tail _ (.head _)))))
  | .induct o _ _ _ _, h =>
    renamed_closed.neutral (.induct o ((h.target (.head _)).itself hK)
      (Normal.itself hK (h.operand (.head _)))
      (Normal.itself hK (h.operand (.tail _ (.head _))))
      (Normal.itself hK (h.operand (.tail _ (.tail _ (.head _))))))
  | .indAbsurd _ _, h =>
    renamed_closed.neutral (.indAbsurd ((h.target (.head _)).itself hK)
      (Normal.itself hK (h.operand (.head _))))
  | .cong _ _ _, h =>
    renamed_closed.neutral (.cong ((h.target (.head _)).itself hK)
      (Normal.itself hK (h.operand (.head _)))
      (Normal.itself hK (h.operand (.tail _ (.head _)))))
  | .transLeft _ _, h =>
    rule_below_renamed.neutral (.transLeft hK.anyOperand ((h.target (.head _)).itself hK)
      (Normal.itself hK (h.operand (.head _))))
  | .transRight _ _, h =>
    rule_below_renamed.neutral (.transRight hK.anyOperand
      (Normal.itself hK (h.operand (.head _))) ((h.target (.head _)).itself hK))
  | .transBoth _ _, h =>
    renamed_closed.neutral (.transBoth ((h.target (.head _)).itself hK)
      ((h.target (.tail _ (.head _))).itself hK))
  | .indVecTarget _ _ _ _ _, h =>
    renamed_closed.neutral (.indVecTarget (Normal.itself hK (h.operand (.head _)))
      ((h.target (.head _)).itself hK) (Normal.itself hK (h.operand (.tail _ (.head _))))
      (Normal.itself hK (h.operand (.tail _ (.tail _ (.head _)))))
      (Normal.itself hK (h.operand (.tail _ (.tail _ (.tail _ (.head _)))))))
  | .indVecBoth _ _ _ _ _, h =>
    renamed_closed.neutral (.indVecBoth ((h.target (.head _)).itself hK)
      ((h.target (.tail _ (.head _))).itself hK) (Normal.itself hK (h.operand (.head _)))
      (Normal.itself hK (h.operand (.tail _ (.head _))))
      (Normal.itself hK (h.operand (.tail _ (.tail _ (.head _))))))

/-- A closure is like itself if its free names correspond to themselves. -/
theorem Closure.Within.itself (hK : K.IsReflexive) :
    ∀ {c : Closure}, c.Within β → (renamed K β).closure c c
  | .captured ρ _ _, h =>
    renamed_closed.closure <| captures_itself hK fun _ _ hz hbody hv =>
      Environment.itself hK ρ hv fun y hy => h y (.captured hz hbody hv hy)
  | .constant _, h => renamed_closed.closure (.constant ((h.part (.head _)).itself hK))
  | .indNatStep _, h => renamed_closed.closure (.indNatStep ((h.part (.head _)).itself hK))
  | .indListStep _ _, h =>
    renamed_closed.closure (.indListStep ((h.part (.head _)).itself hK)
      ((h.part (.tail _ (.head _))).itself hK))
  | .indListStepTail _ _, h =>
    renamed_closed.closure (.indListStepTail ((h.part (.head _)).itself hK)
      ((h.part (.tail _ (.head _))).itself hK))
  | .indEqMotive _ _, h =>
    renamed_closed.closure (.indEqMotive ((h.part (.head _)).itself hK)
      ((h.part (.tail _ (.head _))).itself hK))
  | .indVecMotive _, h => renamed_closed.closure (.indVecMotive ((h.part (.head _)).itself hK))
  | .indVecStep _ _, h =>
    renamed_closed.closure (.indVecStep ((h.part (.head _)).itself hK)
      ((h.part (.tail _ (.head _))).itself hK))
  | .indVecStepHead _ _ _, h =>
    renamed_closed.closure (.indVecStepHead ((h.part (.head _)).itself hK)
      ((h.part (.tail _ (.head _))).itself hK)
      ((h.part (.tail _ (.tail _ (.head _)))).itself hK))
  | .indVecStepTail _ _ _, h =>
    renamed_closed.closure (.indVecStepTail ((h.part (.head _)).itself hK)
      ((h.part (.tail _ (.head _))).itself hK)
      ((h.part (.tail _ (.tail _ (.head _)))).itself hK))
  | .indEitherMethod side _, h =>
    renamed_closed.closure (.indEitherMethod side ((h.part (.head _)).itself hK))

/-- A value that an environment holds is like itself if its free names correspond to
themselves. -/
theorem Environment.itself (hK : K.IsReflexive) :
    ∀ (ρ : List (String × Value)) {z : String} {v : Value}, ρ.lookup z = some v → v.Within β →
    (renamed K β).value v v
  | (x, w) :: ρ, z, v, hv, h => by
    rw [List.lookup_cons] at hv
    split at hv
    · cases hv
      exact h.itself hK
    · exact Environment.itself hK ρ hv h

end

end Itself

end PieChecker
