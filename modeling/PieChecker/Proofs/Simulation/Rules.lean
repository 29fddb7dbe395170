import PieChecker.Proofs.Simulation.Scope
import PieChecker.Proofs.Simulation.Surface
import PieChecker.Typing.Rules

set_option autoImplicit false

/-!
# Elaborating renamed expressions

In corresponding scopes, expressions that are renamings of each other are elaborated in
corresponding ways, under each of the three readings. There is one lemma for each typing rule,
which takes the readings of the parts in the same scopes.
-/

namespace PieChecker

/-- Two pairs correspond if their components do. -/
abbrev Componentwise {α β : Type} (P : α → α → Prop) (Q : β → β → Prop) (p p' : α × β) : Prop :=
  P p.1 p'.1 ∧ Q p.2 p'.2

namespace Worlds

open Likeness

variable {K : Comparison}

/-- Two terms are related, and their types are equal up to names. -/
abbrev Typed (K : Comparison) (W : ScopedWorld) : Core × Value → Core × Value → Prop :=
  Componentwise (Core.Related K W.scope) (renamed K W.var).value

/-- The three readings of two expressions correspond in two scopes. -/
structure Readings (𝒲 : Worlds K) (W : ScopedWorld) (S S' : Scope) (r r' : Rules) : Prop where
  synthesize : 𝒲.Checked (Typed K W) (r.synthesize S) (r'.synthesize S')
  check : ∀ {ty ty'}, (renamed K W.var).value ty ty' →
    𝒲.Checked (Core.Related K W.scope) (r.check S ty) (r'.check S' ty')
  isType : 𝒲.Checked (Core.Related K W.scope) (r.isType S) (r'.isType S')

/-- Two parts of expressions have spans that stand for each other and corresponding readings. -/
structure Parts (𝒲 : Worlds K) (W : ScopedWorld) (S S' : Scope) (a a' : Part) : Prop where
  span : K.span a.span a'.span
  readings : 𝒲.Readings W S S' a.rules a'.rules

variable {𝒲 : Worlds K} {W : ScopedWorld} {S S' : Scope}

/-- The types that the checker itself supplies. -/
theorem value_const (c : Const) : (renamed K W.var).value (.const c) (.const c) :=
  renamed_closed.ofHead (.const c)

/-- Corresponding parts of type formers are read in corresponding ways. -/
theorem Parts.component {a a' : Part} (ha : 𝒲.Parts W S S' a a') (c : Component) :
    𝒲.Checked (Core.Related K W.scope) (a.component c S) (a'.component c S') := by
  cases c with
  | type => exact ha.readings.isType
  | ofUniverse => exact ha.readings.check (value_const .univ)

/-- The ways in which two runs of the checker can end. -/
theorem Checked.cases {α β : Type} {R : α → β → Prop} {r : PieChecker.Checked α}
    {r' : PieChecker.Checked β} (h : 𝒲.Checked R r r') :
    (∃ a b, r = .ok a ∧ r' = .ok b ∧ R a b) ∨
    (∃ e e', r = .error (.rejected e) ∧ r' = .error (.rejected e') ∧ 𝒲.Errors e e') ∨
    (∃ s, r = .error (.stopped s) ∧ K.leftFree s) ∨
    (∃ s, r' = .error (.stopped s) ∧ K.rightFree s) ∨
    (∃ s, r = .error (.stopped s) ∧ r' = .error (.stopped s) ∧ K.agreed s) := by
  rcases r with (e | s) | a <;> rcases r' with (e' | s') | b
  · rcases h with h | h | ⟨⟨h⟩⟩
    · exact h.elim
    · exact h.elim
    · exact Or.inr (Or.inl ⟨e, e', rfl, rfl, h⟩)
  · rcases h with h | h | h
    · exact h.elim
    · exact Or.inr (Or.inr (Or.inr (Or.inl ⟨s', rfl, h⟩)))
    · cases h
  · exact h.elim
  · rcases h with h | h | h
    · exact Or.inr (Or.inr (Or.inl ⟨s, rfl, h⟩))
    · exact h.elim
    · cases h
  · rcases h with h | h | h
    · exact Or.inr (Or.inr (Or.inl ⟨s, rfl, h⟩))
    · exact Or.inr (Or.inr (Or.inr (Or.inl ⟨s', rfl, h⟩)))
    · cases h with
      | stopped h => exact Or.inr (Or.inr (Or.inr (Or.inr ⟨s, rfl, rfl, h⟩)))
  · exact Or.inr (Or.inr (Or.inl ⟨s, rfl, h⟩))
  · exact h.elim
  · exact Or.inr (Or.inr (Or.inr (Or.inl ⟨s', rfl, h⟩)))
  · exact Or.inl ⟨a, b, rfl, rfl, h⟩

/-- A stop after which nothing is claimed ends the comparison. -/
theorem stopped_left {α β : Type} {R : α → β → Prop} {s : Stop} (hs : K.leftFree s)
    (r : PieChecker.Checked β) :
    𝒲.Checked R (.error (.stopped s) : PieChecker.Checked α) r :=
  have hfree : Interrupt.IsFree K.leftFree (.stopped s : Interrupt TypeError) := hs
  Compared.of_left hfree r

theorem stopped_right {α β : Type} {R : α → β → Prop} {s : Stop} (hs : K.rightFree s)
    (r : PieChecker.Checked α) :
    𝒲.Checked R r (.error (.stopped s) : PieChecker.Checked β) :=
  have hfree : Interrupt.IsFree K.rightFree (.stopped s : Interrupt TypeError) := hs
  Compared.of_right hfree r

section Patterns

variable {n m : Nat} (hK : Comparable K n m)

include hK

/-! ## The four patterns -/

/-- A mismatch of types at the expression itself is reported by both runs as not being a
type. -/
theorem asType {s s' : Span} (hs : K.span s s')
    {check check' : Scope → Value → PieChecker.Checked Core}
    (h : 𝒲.Checked (Core.Related K W.scope) (check S .univ) (check' S' .univ)) :
    𝒲.Checked (Core.Related K W.scope) (Rules.asType s check S)
      (Rules.asType s' check' S') := by
  rw [Rules.asType, Rules.asType]
  rcases h.cases with ⟨t, t', hr, hr', ht⟩ | ⟨⟨s₁, c⟩, ⟨s₂, c'⟩, hr, hr', hs₁, hc⟩ | ⟨stop,
    hr, hstop⟩ |
    ⟨stop, hr', hstop⟩ | ⟨stop, hr, hr', hstop⟩
  · rw [hr, hr']
    exact ht
  · rw [hr, hr']
    have hiff : s₁ = s ↔ s₂ = s' := hK.span _ _ _ _ hs₁ hs
    have hreject := reject (R := Core.Related K W.scope) hs₁ hc
    cases hc with
    | typeMismatch hW ht hu =>
      simp only [hiff]
      split
      · exact reject hs₁ (.notAType hW hu)
      · exact hreject
    | _ => exact hreject
  · rw [hr]
    exact stopped_left hstop _
  · rw [hr']
    exact stopped_right hstop _
  · rw [hr, hr']
    exact Compared.of_errors (.stopped hstop)

variable (hS : 𝒲.Contexts W S.context S'.context)

include hS

theorem checkFound {s s' : Span} (hs : K.span s s')
    {find find' : Scope → PieChecker.Checked (Core × Value)}
    (h : 𝒲.Checked (Typed K W) (find S) (find' S')) {ty ty' : Value}
    (hty : (renamed K W.var).value ty ty') :
    𝒲.Checked (Core.Related K W.scope) (Rules.checkFound (K.leftEngine n) s find S ty)
      (Rules.checkFound (K.rightEngine m) s' find' S' ty') := by
  refine (Comparison.lift (renamed_closed.now hty)).bind fun T T' hT => ?_
  refine h.bind fun ⟨t, U⟩ ⟨t', U'⟩ ⟨ht, hU⟩ => ?_
  refine (locate hs (hS.sameType hK (renamed_closed.ofHead hT) hU)).bind fun _ _ _ => ?_
  exact ht

theorem inferred {s s' : Span} (hs : K.span s s')
    {find find' : Scope → PieChecker.Checked (Core × Value)}
    (h : 𝒲.Checked (Typed K W) (find S) (find' S')) :
    𝒲.Readings W S S' (Rules.inferred (K.leftEngine n) s find)
      (Rules.inferred (K.rightEngine m) s' find') where
  synthesize := h
  check := checkFound hK hS hs h
  isType := asType hK hs (checkFound hK hS hs h (value_const .univ))

theorem former {s s' : Span} (hs : K.span s s')
    {build build' : Component → Scope → PieChecker.Checked Core}
    (h : ∀ c, 𝒲.Checked (Core.Related K W.scope) (build c S) (build' c S')) :
    𝒲.Readings W S S' (Rules.former (K.leftEngine n) s build)
      (Rules.former (K.rightEngine m) s' build') := by
  have hfind : 𝒲.Checked (Typed K W) ((Rules.former (K.leftEngine n) s build).synthesize S)
      ((Rules.former (K.rightEngine m) s' build').synthesize S') :=
    (h .ofUniverse).bind fun t t' ht => .of_ok (R := Typed K W) ⟨ht, value_const .univ⟩
  exact ⟨hfind, checkFound hK hS hs hfind, h .type⟩

omit hS in
theorem checked {s s' : Span} (hs : K.span s s')
    {check check' : Scope → Value → PieChecker.Checked Core}
    (h : ∀ {T T'}, (renamed K W.var).Head T T' →
      𝒲.Checked (Core.Related K W.scope) (check S T) (check' S' T')) :
    𝒲.Readings W S S' (Rules.checked s check) (Rules.checked s' check') := by
  have hcheck : ∀ {ty ty'}, (renamed K W.var).value ty ty' → 𝒲.Checked (Core.Related K W.scope)
      ((Rules.checked s check).check S ty) ((Rules.checked s' check').check S' ty') :=
    fun hty => (Comparison.lift (renamed_closed.now hty)).bind fun T T' hT => h hT
  exact ⟨reject hs .cannotSynthesize, hcheck, asType hK hs (hcheck (value_const .univ))⟩

theorem univ {s s' : Span} (hs : K.span s s') :
    𝒲.Readings W S S' (Rules.univ (K.leftEngine n) s) (Rules.univ (K.rightEngine m) s') := by
  have hfind : 𝒲.Checked (Typed K W) ((Rules.univ (K.leftEngine n) s).synthesize S)
      ((Rules.univ (K.rightEngine m) s').synthesize S') := reject hs .universeHasNoType
  exact ⟨hfind, checkFound hK hS hs hfind, Core.Related.const .univ⟩

/-! ## Parts with a type of a given form -/

theorem rejectFormer {α β : Type} {R : α → β → Prop} {s s' : Span} (hs : K.span s s')
    (former : Former) {T T' : Value} (hT : (renamed K W.var).Head T T') :
    𝒲.Checked R (S.rejectFormer (K.leftEngine n) s former T : PieChecker.Checked α)
      (S'.rejectFormer (K.rightEngine m) s' former T') :=
  (Comparison.lift (hS.readBackType hK (renamed_closed.ofHead hT))).bind fun _ _ ht =>
    reject hs (.expectedFormer hS.admits former ht)

theorem rejectLength {α β : Type} {R : α → β → Prop} {s s' : Span} (hs : K.span s s')
    (shape : LengthShape) {l l' : Value} (hl : (renamed K W.var).Head l l') :
    𝒲.Checked R (S.rejectLength (K.leftEngine n) s shape l : PieChecker.Checked α)
      (S'.rejectLength (K.rightEngine m) s' shape l') :=
  (Comparison.lift (hS.readBack hK (value_const .nat) (renamed_closed.ofHead hl))).bind
    fun _ _ ht => reject hs (.vecLengthMismatch hS.admits shape ht)

theorem findFormer {α : Type} {P : α → α → Prop} {a a' : Part} (ha : 𝒲.Parts W S S' a a')
    (former : Former) {parts? : Value → Option α}
    (hparts : ∀ {T T'}, (renamed K W.var).Head T T' → Option.Rel P (parts? T) (parts? T')) :
    𝒲.Checked (Componentwise (Core.Related K W.scope) P)
      (Rules.findFormer (K.leftEngine n) a former parts? S)
      (Rules.findFormer (K.rightEngine m) a' former parts? S') := by
  refine ha.readings.synthesize.bind fun ⟨t, ty⟩ ⟨t', ty'⟩ ⟨ht, hty⟩ => ?_
  refine (Comparison.lift (renamed_closed.now hty)).bind fun T T' hT => ?_
  have hrel := hparts hT
  generalize parts? T = p, parts? T' = p' at hrel
  cases hrel with
  | some hp => exact ⟨ht, hp⟩
  | none => exact rejectFormer hK hS ha.span former hT

theorem findList {a a' : Part} (ha : 𝒲.Parts W S S' a a') :
    𝒲.Checked (Typed K W) (Rules.findList (K.leftEngine n) a S)
      (Rules.findList (K.rightEngine m) a' S') := by
  refine findFormer hK hS ha .list fun {T T'} hT => ?_
  cases hT with
  | unary o h =>
    cases o with
    | list => exact .some h
    | _ => exact .none
  | _ => exact .none

theorem findEqual {a a' : Part} (ha : 𝒲.Parts W S S' a a') :
    𝒲.Checked (Componentwise (Core.Related K W.scope)
        (Componentwise (renamed K W.var).value
          (Componentwise (renamed K W.var).value (renamed K W.var).value)))
      (Rules.findEqual (K.leftEngine n) a S) (Rules.findEqual (K.rightEngine m) a' S') := by
  refine findFormer hK hS ha .equal fun {T T'} hT => ?_
  cases hT with
  | equal hty hl hr => exact .some ⟨hty, hl, hr⟩
  | _ => exact .none

theorem findVec {a a' : Part} (ha : 𝒲.Parts W S S' a a') :
    𝒲.Checked (Componentwise (Core.Related K W.scope)
      (Componentwise (renamed K W.var).value (renamed K W.var).value))
        (Rules.findVec (K.leftEngine n) a S) (Rules.findVec (K.rightEngine m) a' S') := by
  refine findFormer hK hS ha .vec fun {T T'} hT => ?_
  cases hT with
  | binary o he hl =>
    cases o with
    | vec => exact .some ⟨he, hl⟩
    | _ => exact .none
  | _ => exact .none

theorem findQuant {a a' : Part} (ha : 𝒲.Parts W S S' a a') (former : Former) (q : Quantifier) :
    𝒲.Checked (Componentwise (Core.Related K W.scope)
        (Componentwise (renamed K W.var).value (renamed K W.var).closure))
      (Rules.findQuant (K.leftEngine n) a former q S)
      (Rules.findQuant (K.rightEngine m) a' former q S') := by
  refine findFormer hK hS ha former fun {T T'} hT => ?_
  cases hT with
  | quant q' hx hbase hfam =>
    dsimp only
    split
    · exact .some ⟨hbase, hfam⟩
    · exact .none
  | _ => exact .none

theorem findNonempty {a a' : Part} (ha : 𝒲.Parts W S S' a a') :
    𝒲.Checked (Componentwise (Core.Related K W.scope)
      (Componentwise (renamed K W.var).value (renamed K W.var).value))
        (Rules.findNonempty (K.leftEngine n) a S)
        (Rules.findNonempty (K.rightEngine m) a' S') := by
  refine (findVec hK hS ha).bind fun ⟨t, entry, length⟩ ⟨t', entry', length'⟩ ⟨ht, he, hl⟩ => ?_
  refine (Comparison.lift (renamed_closed.now hl)).bind fun l l' hl => ?_
  have hreject := rejectLength hK hS (R := Componentwise (Core.Related K W.scope)
    (Componentwise (renamed K W.var).value (renamed K W.var).value)) ha.span .successor hl
  cases hl with
  | unary o hprevious =>
    cases o with
    | add1 => exact ⟨ht, he, hprevious⟩
    | _ => exact hreject
  | _ => exact hreject

/-- An ill-typed motive is reported as such by both runs. -/
theorem checkMotive {a a' : Part} (ha : 𝒲.Parts W S S' a a') {ty ty' : Value}
    (hty : (renamed K W.var).value ty ty') :
    𝒲.Checked (Typed K W) (Rules.checkMotive (K.leftEngine n) a S ty)
      (Rules.checkMotive (K.rightEngine m) a' S' ty') := by
  rw [Rules.checkMotive, Rules.checkMotive]
  rcases (ha.readings.check hty).cases with ⟨t, t', hr, hr', ht⟩ | ⟨⟨s, c⟩, ⟨s', c'⟩, hr,
    hr', hs, hc⟩ |
    ⟨stop, hr, hstop⟩ | ⟨stop, hr', hstop⟩ | ⟨stop, hr, hr', hstop⟩
  · rw [hr, hr']
    exact (Comparison.lift (hS.evaluate hK ht)).bind fun v v' hv =>
      .of_ok (R := Typed K W) ⟨ht, hv⟩
  · rw [hr, hr']
    have hreject := reject (R := Typed K W) hs hc
    have hmotive : 𝒲.Checked (Typed K W)
        (do PieChecker.reject s (.illTypedMotive
          (← S.context.readBackType (K.leftEngine n) ty) c))
        (do PieChecker.reject s' (.illTypedMotive
          (← S'.context.readBackType (K.rightEngine m) ty') c')) :=
      (Comparison.lift (hS.readBackType hK hty)).bind fun t t' ht =>
        reject hs (.illTypedMotive hS.admits ht hc)
    cases hc with
    | typeMismatch => exact hmotive
    | expectedFormer => exact hmotive
    | notAType => exact hmotive
    | _ => exact hreject
  · rw [hr]
    exact stopped_left hstop _
  · rw [hr']
    exact stopped_right hstop _
  · rw [hr, hr']
    exact Compared.of_errors (.stopped hstop)

/-! ## Applications -/

theorem applyTo {s s' : Span} (hs : K.span s s') {as as' : List Part}
    (has : List.Forall₂ (𝒲.Parts W S S') as as') {f f' : Core}
    (hf : Core.Related K W.scope f f') {ty ty' : Value} (hty : (renamed K W.var).value ty ty') :
    𝒲.Checked (Typed K W) (Rules.applyTo (K.leftEngine n) s as S f ty)
      (Rules.applyTo (K.rightEngine m) s' as' S' f' ty') := by
  induction has generalizing f f' ty ty' with
  | nil => exact ⟨hf, hty⟩
  | cons ha _ ih =>
    refine (Comparison.lift (renamed_closed.now hty)).bind fun T T' hT => ?_
    have hreject := rejectFormer hK hS (R := Typed K W) hs .pi hT
    cases hT with
    | quant q hx hbase hfam =>
      cases q with
      | pi =>
        refine (ha.readings.check hbase).bind fun a a' ha => ?_
        refine (Comparison.lift (hS.evaluate hK ha)).bind fun v v' hv => ?_
        refine (Comparison.lift (Contexts.run hK hfam hv)).bind fun r r' hr => ?_
        exact ih (.binary .apply hf ha) hr
      | sigma => exact hreject
    | _ => exact hreject

/-! ## Expressions without binders -/

theorem const {s s' : Span} (hs : K.span s s') (c : Const) :
    𝒲.Readings W S S' (Rules.const (K.leftEngine n) s c)
      (Rules.const (K.rightEngine m) s' c) := by
  cases c with
  | univ => exact univ hK hS hs
  | nat =>
    rw [Rules.const, Rules.const]
    exact former hK hS hs fun _ => Core.Related.const .nat
  | atom =>
    rw [Rules.const, Rules.const]
    exact former hK hS hs fun _ => Core.Related.const .atom
  | trivial =>
    rw [Rules.const, Rules.const]
    exact former hK hS hs fun _ => Core.Related.const .trivial
  | absurd =>
    rw [Rules.const, Rules.const]
    exact former hK hS hs fun _ => Core.Related.const .absurd
  | zero => exact inferred hK hS hs (.of_ok (R := Typed K W) ⟨.const .zero, value_const .nat⟩)
  | sole =>
    exact inferred hK hS hs (.of_ok (R := Typed K W) ⟨.const .sole, value_const .trivial⟩)
  | nil =>
    refine checked hK hs fun {T T'} hT => ?_
    have hreject := rejectFormer hK hS (R := Core.Related K W.scope) hs .list hT
    cases hT with
    | unary o _ =>
      cases o with
      | list => exact Core.Related.const .nil
      | _ => exact hreject
    | _ => exact hreject
  | vecnil =>
    refine checked hK hs fun {T T'} hT => ?_
    have hreject := rejectFormer hK hS (R := Core.Related K W.scope) hs .vec hT
    cases hT with
    | binary o _ hl =>
      cases o with
      | vec =>
        refine (Comparison.lift (renamed_closed.now hl)).bind fun l l' hl => ?_
        have hreject := rejectLength hK hS (R := Core.Related K W.scope) hs .zero hl
        cases hl with
        | const c =>
          cases c with
          | zero => exact Core.Related.const .vecnil
          | _ => exact hreject
        | _ => exact hreject
      | _ => exact hreject
    | _ => exact hreject

theorem todo {s s' : Span} (hs : K.span s s') :
    𝒲.Readings W S S' (Rules.todo (K.leftEngine n) s) (Rules.todo (K.rightEngine m) s') :=
  checked hK hs fun hT =>
    (Comparison.lift (hS.readBackType_scope hK (renamed_closed.ofHead hT))).bind fun _ _ ht =>
    .of_ok (Core.Related.todo hs ht)

theorem var {s s' : Span} (hs : K.span s s') {x x' : String}
    (h : 𝒲.Referents W (S.reference x) (S'.reference x')) :
    𝒲.Readings W S S' (Rules.var (K.leftEngine n) s x) (Rules.var (K.rightEngine m) s' x') :=
  inferred hK hS hs <| (locateError hs h).bind fun ⟨_, _⟩ ⟨_, _⟩ ⟨hy, hty⟩ =>
    .of_ok (R := Typed K W) ⟨.var hy, hty⟩

omit hK hS in
theorem numeral (k : Nat) : Core.Related K W.scope (.numeral k) (.numeral k) := by
  induction k with
  | zero => exact .const .zero
  | succ k ih => exact .unary .add1 ih

theorem number {s s' : Span} (hs : K.span s s') (k : Nat) :
    𝒲.Readings W S S' (Rules.number (K.leftEngine n) s k)
      (Rules.number (K.rightEngine m) s' k) := by
  refine inferred hK hS hs ?_
  split
  · exact reject hs (.numeralTooLarge k)
  · exact Compared.of_ok (R := Typed K W) ⟨numeral k, value_const .nat⟩

theorem quote {s s' : Span} (hs : K.span s s') (a : String) :
    𝒲.Readings W S S' (Rules.quote (K.leftEngine n) s a) (Rules.quote (K.rightEngine m) s' a) :=
  inferred hK hS hs (.of_ok (R := Typed K W) ⟨.quote a, value_const .atom⟩)

theorem unary {s s' : Span} (hs : K.span s s') (o : Unary) {a a' : Part}
    (ha : 𝒲.Parts W S S' a a') :
    𝒲.Readings W S S' (Rules.unary (K.leftEngine n) s o a)
      (Rules.unary (K.rightEngine m) s' o a') := by
  cases o with
  | add1 =>
    refine inferred hK hS hs ?_
    exact (ha.readings.check (value_const .nat)).bind fun t t' ht =>
      .of_ok (R := Typed K W) ⟨.unary .add1 ht, value_const .nat⟩
  | car =>
    refine inferred hK hS hs ?_
    exact (findQuant hK hS ha .sigma .sigma).bind
      fun ⟨t, base, _⟩ ⟨t', base', _⟩ ⟨ht, hbase, _⟩ =>
      .of_ok (R := Typed K W) ⟨.unary .car ht, hbase⟩
  | cdr =>
    refine inferred hK hS hs ?_
    refine (findQuant hK hS ha .sigma .sigma).bind
      fun ⟨t, _, family⟩ ⟨t', _, family'⟩ ⟨ht, _, hfam⟩ => ?_
    refine (Comparison.lift (hS.evaluate hK ht)).bind fun v v' hv => ?_
    refine (Comparison.lift (car renamed_closed hv)).bind fun c c' hc => ?_
    exact (Comparison.lift (Contexts.run hK hfam hc)).bind fun ty ty' hty =>
      .of_ok (R := Typed K W) ⟨.unary .cdr ht, hty⟩
  | list =>
    rw [Rules.unary, Rules.unary]
    refine former hK hS hs fun c => ?_
    exact (ha.component c).bind fun t t' ht => .of_ok (Core.Related.unary .list ht)
  | same =>
    refine checked hK hs fun {T T'} hT => ?_
    have hreject := rejectFormer hK hS (R := Core.Related K W.scope) hs .equal hT
    cases hT with
    | equal hspace hl hr =>
      refine (ha.readings.check hspace).bind fun t t' ht => ?_
      refine (Comparison.lift (hS.evaluate hK ht)).bind fun v v' hv => ?_
      refine (locate hs (hS.convert hK hspace hl hv)).bind fun _ _ _ => ?_
      refine (locate hs (hS.convert hK hspace hv hr)).bind fun _ _ _ => ?_
      exact Core.Related.unary .same ht
    | _ => exact hreject
  | symm =>
    refine inferred hK hS hs ?_
    exact (findEqual hK hS ha).bind fun ⟨t, _, _, _⟩ ⟨t', _, _, _⟩ ⟨ht, hspace, hl, hr⟩ =>
      .of_ok (R := Typed K W) ⟨.unary .symm ht, renamed_closed.ofHead (.equal hspace hr hl)⟩
  | head =>
    refine inferred hK hS hs ?_
    exact (findNonempty hK hS ha).bind fun ⟨t, _, _⟩ ⟨t', _, _⟩ ⟨ht, he, _⟩ =>
      .of_ok (R := Typed K W) ⟨.unary .head ht, he⟩
  | tail =>
    refine inferred hK hS hs ?_
    exact (findNonempty hK hS ha).bind fun ⟨t, _, _⟩ ⟨t', _, _⟩ ⟨ht, he, hl⟩ =>
      .of_ok (R := Typed K W) ⟨.unary .tail ht, renamed_closed.ofHead (.binary .vec he hl)⟩
  | left =>
    refine checked hK hs fun {T T'} hT => ?_
    have hreject := rejectFormer hK hS (R := Core.Related K W.scope) hs .either hT
    cases hT with
    | binary o hl hr =>
      cases o with
      | either =>
        exact (ha.readings.check hl).bind fun t t' ht => .of_ok (Core.Related.unary .left ht)
      | _ => exact hreject
    | _ => exact hreject
  | right =>
    refine checked hK hs fun {T T'} hT => ?_
    have hreject := rejectFormer hK hS (R := Core.Related K W.scope) hs .either hT
    cases hT with
    | binary o hl hr =>
      cases o with
      | either =>
        exact (ha.readings.check hr).bind fun t t' ht => .of_ok (Core.Related.unary .right ht)
      | _ => exact hreject
    | _ => exact hreject

/-- The rules of the operators with two operands, apart from `Pair`, which binds a name. -/
theorem binary {s s' : Span} (hs : K.span s s') {o : Surface.Binary} (ho : o ≠ .pair)
    {a a' b b' : Part} (ha : 𝒲.Parts W S S' a a') (hb : 𝒲.Parts W S S' b b') :
    𝒲.Readings W S S' (Rules.binary (K.leftEngine n) s o a b)
      (Rules.binary (K.rightEngine m) s' o a' b') := by
  cases o with
  | the =>
    refine inferred hK hS hs ?_
    refine ha.readings.isType.bind fun ty ty' hty => ?_
    refine (Comparison.lift (hS.evaluate hK hty)).bind fun v v' hv => ?_
    exact (hb.readings.check hv).bind fun t t' ht =>
      .of_ok (R := Typed K W) ⟨.binary .the hty ht, hv⟩
  | pair => exact (ho rfl).elim
  | cons =>
    refine checked hK hs fun {T T'} hT => ?_
    have hreject := rejectFormer hK hS (R := Core.Related K W.scope) hs .sigma hT
    cases hT with
    | quant q hx hbase hfam =>
      cases q with
      | pi => exact hreject
      | sigma =>
        refine (ha.readings.check hbase).bind fun t t' ht => ?_
        refine (Comparison.lift (hS.evaluate hK ht)).bind fun v v' hv => ?_
        refine (Comparison.lift (Contexts.run hK hfam hv)).bind fun ty ty' hty => ?_
        exact (hb.readings.check hty).bind fun u u' hu =>
          .of_ok (Core.Related.binary .cons ht hu)
    | _ => exact hreject
  | listCons =>
    refine inferred hK hS hs ?_
    refine ha.readings.synthesize.bind fun ⟨t, entry⟩ ⟨t', entry'⟩ ⟨ht, he⟩ => ?_
    have hlist := renamed_closed.ofHead (.unary .list he)
    exact (hb.readings.check hlist).bind fun u u' hu =>
      .of_ok (R := Typed K W) ⟨.binary .listCons ht hu, hlist⟩
  | indAbsurd =>
    refine inferred hK hS hs ?_
    refine (ha.readings.check (value_const .absurd)).bind fun t t' ht => ?_
    refine hb.readings.isType.bind fun p p' hp => ?_
    exact (Comparison.lift (hS.evaluate hK hp)).bind fun v v' hv =>
      .of_ok (R := Typed K W) ⟨.binary .indAbsurd ht hp, hv⟩
  | trans =>
    refine inferred hK hS hs ?_
    refine (findEqual hK hS ha).bind fun ⟨t, _, _, _⟩ ⟨t', _, _, _⟩ ⟨ht, hspace, hl, hmid⟩ => ?_
    refine (findEqual hK hS hb).bind
      fun ⟨u, _, _, _⟩ ⟨u', _, _, _⟩ ⟨hu, hspace', hmid', hr⟩ => ?_
    refine (locate hb.span (hS.sameType hK hspace hspace')).bind fun _ _ _ => ?_
    refine (locate hs (hS.convert hK hspace hmid hmid')).bind fun _ _ _ => ?_
    exact ⟨Core.Related.binary .trans ht hu, renamed_closed.ofHead (.equal hspace hl hr)⟩
  | cong =>
    refine inferred hK hS hs ?_
    refine (findEqual hK hS ha).bind fun ⟨t, _, _, _⟩ ⟨t', _, _, _⟩ ⟨ht, hspace, hl, hr⟩ => ?_
    refine (findQuant hK hS hb .pi .pi).bind fun ⟨f, _, _⟩ ⟨f', _, _⟩ ⟨hf, hbase, hfam⟩ => ?_
    refine (locate hb.span (hS.sameType hK hspace hbase)).bind fun _ _ _ => ?_
    refine (Comparison.lift (Contexts.run hK hfam hl)).bind fun r r' hresult => ?_
    refine (Comparison.lift (hS.evaluate hK hf)).bind fun v v' hv => ?_
    refine (Comparison.lift (Contexts.apply hK hv hl)).bind fun l l' hl => ?_
    refine (Comparison.lift (Contexts.apply hK hv hr)).bind fun r r' hr => ?_
    exact (Comparison.lift (hS.readBackType_scope hK hresult)).bind fun p p' hp =>
      .of_ok (R := Typed K W) ⟨.ternary .cong ht hp hf,
        renamed_closed.ofHead (.equal hresult hl hr)⟩
  | vec =>
    rw [Rules.binary, Rules.binary]
    refine former hK hS hs fun c => ?_
    exact (ha.component c).bind fun t t' ht => (hb.readings.check (value_const .nat)).bind
      fun u u' hu => .of_ok (Core.Related.binary .vec ht hu)
  | vecCons =>
    refine checked hK hs fun {T T'} hT => ?_
    have hreject := rejectFormer hK hS (R := Core.Related K W.scope) hs .vec hT
    cases hT with
    | binary o he hl =>
      cases o with
      | vec =>
        refine (Comparison.lift (renamed_closed.now hl)).bind fun l l' hl => ?_
        have hreject := rejectLength hK hS (R := Core.Related K W.scope) hs .successor hl
        cases hl with
        | unary o hprevious =>
          cases o with
          | add1 =>
            refine (ha.readings.check he).bind fun t t' ht => ?_
            exact (hb.readings.check (renamed_closed.ofHead (.binary .vec he hprevious))).bind
              fun u u' hu => .of_ok (Core.Related.binary .vecCons ht hu)
          | _ => exact hreject
        | _ => exact hreject
      | _ => exact hreject
    | _ => exact hreject
  | either =>
    rw [Rules.binary, Rules.binary]
    refine former hK hS hs fun c => ?_
    exact (ha.component c).bind fun t t' ht => (hb.component c).bind fun u u' hu =>
      .of_ok (Core.Related.binary .either ht hu)

theorem natRecursor {s s' : Span} (hs : K.span s s') (o : Core.Quaternary)
    {stepType : Value → Value} (hstep : ∀ {v v'}, (renamed K W.var).value v v' →
      (renamed K W.var).value (stepType v) (stepType v'))
    {a a' b b' c c' : Part} (ha : 𝒲.Parts W S S' a a') (hb : 𝒲.Parts W S S' b b')
    (hc : 𝒲.Parts W S S' c c') :
    𝒲.Readings W S S' (Rules.natRecursor (K.leftEngine n) s o stepType a b c)
      (Rules.natRecursor (K.rightEngine m) s' o stepType a' b' c') := by
  refine inferred hK hS hs ?_
  refine (ha.readings.check (value_const .nat)).bind fun t t' ht => ?_
  refine hb.readings.synthesize.bind fun ⟨b, _⟩ ⟨b', _⟩ ⟨hb, hresult⟩ => ?_
  refine (hc.readings.check (hstep hresult)).bind fun p p' hp => ?_
  exact (Comparison.lift (hS.readBackType_scope hK hresult)).bind fun r r' hr =>
    .of_ok (R := Typed K W) ⟨.quaternary o ht hr hb hp, hresult⟩

theorem ternary {s s' : Span} (hs : K.span s s') (o : Surface.Ternary) {a a' b b' c c' : Part}
    (ha : 𝒲.Parts W S S' a a') (hb : 𝒲.Parts W S S' b b') (hc : 𝒲.Parts W S S' c c') :
    𝒲.Readings W S S' (Rules.ternary (K.leftEngine n) s o a b c)
      (Rules.ternary (K.rightEngine m) s' o a' b' c') := by
  cases o with
  | whichNat =>
    exact natRecursor hK hS hs .whichNat (renamed_closed.whichNatStepType hK.operands) ha hb hc
  | iterNat =>
    exact natRecursor hK hS hs .iterNat (renamed_closed.iterNatStepType hK.operands) ha hb hc
  | recNat =>
    exact natRecursor hK hS hs .recNat (renamed_closed.recNatStepType hK.operands) ha hb hc
  | recList =>
    refine inferred hK hS hs ?_
    refine (findList hK hS ha).bind fun ⟨t, _⟩ ⟨t', _⟩ ⟨ht, he⟩ => ?_
    refine hb.readings.synthesize.bind fun ⟨b, _⟩ ⟨b', _⟩ ⟨hb, hresult⟩ => ?_
    refine (hc.readings.check (renamed_closed.recListStepType hK.operands he hresult)).bind
      fun p p' hp => ?_
    exact (Comparison.lift (hS.readBackType_scope hK hresult)).bind fun r r' hr =>
      .of_ok (R := Typed K W) ⟨.quaternary .recList ht hr hb hp, hresult⟩
  | equal =>
    rw [Rules.ternary, Rules.ternary]
    refine former hK hS hs fun component => ?_
    refine (ha.component component).bind fun t t' ht => ?_
    refine (Comparison.lift (hS.evaluate hK ht)).bind fun v v' hv => ?_
    exact (hb.readings.check hv).bind fun l l' hl => (hc.readings.check hv).bind fun r r' hr =>
      .of_ok (Core.Related.ternary .equal ht hl hr)
  | replace =>
    refine inferred hK hS hs ?_
    refine (findEqual hK hS ha).bind fun ⟨t, _, _, _⟩ ⟨t', _, _, _⟩ ⟨ht, hspace, hl, hr⟩ => ?_
    refine (checkMotive hK hS hb (renamed_closed.motiveType hK.operands hspace)).bind
      fun ⟨p, _⟩ ⟨p', _⟩ ⟨hp, hmotive⟩ => ?_
    refine (Comparison.lift (Contexts.apply hK hmotive hl)).bind fun bt bt' hbt => ?_
    refine (hc.readings.check hbt).bind fun b b' hb => ?_
    exact (Comparison.lift (Contexts.apply hK hmotive hr)).bind fun r r' hresult =>
      .of_ok (R := Typed K W) ⟨.ternary .replace ht hp hb, hresult⟩
  | indEq =>
    refine inferred hK hS hs ?_
    refine (findEqual hK hS ha).bind fun ⟨t, _, _, _⟩ ⟨t', _, _, _⟩ ⟨ht, hspace, hl, hr⟩ => ?_
    refine (checkMotive hK hS hb (renamed_closed.indEqMotiveType hK.operands hspace hl)).bind
      fun ⟨p, _⟩ ⟨p', _⟩ ⟨hp, hmotive⟩ => ?_
    refine (Comparison.lift (Contexts.apply hK hmotive hl)).bind fun f f' hf => ?_
    refine (Comparison.lift (Contexts.apply hK hf
      (renamed_closed.ofHead (.unary .same hl)))).bind
      fun bt bt' hbt => ?_
    refine (hc.readings.check hbt).bind fun b b' hb => ?_
    refine (Comparison.lift (Contexts.apply hK hmotive hr)).bind fun g g' hg => ?_
    refine (Comparison.lift (hS.evaluate hK ht)).bind fun v v' hv => ?_
    exact (Comparison.lift (Contexts.apply hK hg hv)).bind fun r r' hresult =>
      .of_ok (R := Typed K W) ⟨.ternary .indEq ht hp hb, hresult⟩

theorem quaternary {s s' : Span} (hs : K.span s s') (o : Surface.Quaternary)
    {a a' b b' c c' d d' : Part} (ha : 𝒲.Parts W S S' a a') (hb : 𝒲.Parts W S S' b b')
    (hc : 𝒲.Parts W S S' c c') (hd : 𝒲.Parts W S S' d d') :
    𝒲.Readings W S S' (Rules.quaternary (K.leftEngine n) s o a b c d)
      (Rules.quaternary (K.rightEngine m) s' o a' b' c' d') := by
  cases o with
  | indNat =>
    refine inferred hK hS hs ?_
    refine (ha.readings.check (value_const .nat)).bind fun t t' ht => ?_
    refine (checkMotive hK hS hb
      (renamed_closed.motiveType hK.operands (value_const .nat))).bind
      fun ⟨p, _⟩ ⟨p', _⟩ ⟨hp, hmotive⟩ => ?_
    refine (Comparison.lift (Contexts.apply hK hmotive (value_const .zero))).bind
      fun bt bt' hbt => ?_
    refine (hc.readings.check hbt).bind fun b b' hb => ?_
    refine (hd.readings.check (renamed_closed.indNatStepType hK.operands hmotive)).bind
      fun q q' hq => ?_
    refine (Comparison.lift (hS.evaluate hK ht)).bind fun v v' hv => ?_
    exact (Comparison.lift (Contexts.apply hK hmotive hv)).bind fun r r' hresult =>
      .of_ok (R := Typed K W) ⟨.quaternary .indNat ht hp hb hq, hresult⟩
  | indList =>
    refine inferred hK hS hs ?_
    refine (findList hK hS ha).bind fun ⟨t, _⟩ ⟨t', _⟩ ⟨ht, he⟩ => ?_
    refine (checkMotive hK hS hb (renamed_closed.motiveType hK.operands
      (renamed_closed.ofHead (.unary .list he)))).bind fun ⟨p, _⟩ ⟨p', _⟩ ⟨hp, hmotive⟩ => ?_
    refine (Comparison.lift (Contexts.apply hK hmotive (value_const .nil))).bind
      fun bt bt' hbt => ?_
    refine (hc.readings.check hbt).bind fun b b' hb => ?_
    refine (hd.readings.check (renamed_closed.indListStepType hK.operands he hmotive)).bind
      fun q q' hq => ?_
    refine (Comparison.lift (hS.evaluate hK ht)).bind fun v v' hv => ?_
    exact (Comparison.lift (Contexts.apply hK hmotive hv)).bind fun r r' hresult =>
      .of_ok (R := Typed K W) ⟨.quaternary .indList ht hp hb hq, hresult⟩
  | indEither =>
    refine inferred hK hS hs ?_
    refine (findFormer hK hS ha .either
      (P := Componentwise (renamed K W.var).value (renamed K W.var).value)
      fun {T T'} hT => ?_).bind fun ⟨t, _, _⟩ ⟨t', _, _⟩ ⟨ht, hleft, hright⟩ => ?_
    · cases hT with
      | binary o hl hr =>
        cases o with
        | either => exact .some ⟨hl, hr⟩
        | _ => exact .none
      | _ => exact .none
    refine (checkMotive hK hS hb (renamed_closed.motiveType hK.operands
      (renamed_closed.ofHead (.binary .either hleft hright)))).bind
        fun ⟨p, _⟩ ⟨p', _⟩ ⟨hp, hmotive⟩ => ?_
    refine (hc.readings.check (renamed_closed.indEitherMethodType hK.operands .left hleft
      hmotive)).bind
      fun l l' hl => ?_
    refine (hd.readings.check (renamed_closed.indEitherMethodType hK.operands .right hright
      hmotive)).bind
      fun r r' hr => ?_
    refine (Comparison.lift (hS.evaluate hK ht)).bind fun v v' hv => ?_
    exact (Comparison.lift (Contexts.apply hK hmotive hv)).bind fun r r' hresult =>
      .of_ok (R := Typed K W) ⟨.quaternary .indEither ht hp hl hr, hresult⟩

theorem indVec {s s' : Span} (hs : K.span s s') {l l' t t' p p' b b' q q' : Part}
    (hl : 𝒲.Parts W S S' l l') (ht : 𝒲.Parts W S S' t t') (hp : 𝒲.Parts W S S' p p')
    (hb : 𝒲.Parts W S S' b b') (hq : 𝒲.Parts W S S' q q') :
    𝒲.Readings W S S' (Rules.indVec (K.leftEngine n) s l t p b q)
      (Rules.indVec (K.rightEngine m) s' l' t' p' b' q') := by
  refine inferred hK hS hs ?_
  refine (hl.readings.check (value_const .nat)).bind fun lt lt' hlt => ?_
  refine (Comparison.lift (hS.evaluate hK hlt)).bind fun lv lv' hlv => ?_
  refine (findVec hK hS ht).bind fun ⟨t, _, _⟩ ⟨t', _, _⟩ ⟨ht, he, hlength⟩ => ?_
  refine (locate hl.span (hS.convert hK (value_const .nat) hlv hlength)).bind fun _ _ _ => ?_
  refine (checkMotive hK hS hp (renamed_closed.indVecMotiveType hK.operands he)).bind
    fun ⟨p, _⟩ ⟨p', _⟩ ⟨hp, hmotive⟩ => ?_
  refine (Comparison.lift (Contexts.apply hK hmotive (value_const .zero))).bind
    fun f f' hf => ?_
  refine (Comparison.lift (Contexts.apply hK hf (value_const .vecnil))).bind
    fun bt bt' hbt => ?_
  refine (hb.readings.check hbt).bind fun b b' hb => ?_
  refine (hq.readings.check (renamed_closed.indVecStepType hK.operands he hmotive)).bind
    fun q q' hq => ?_
  refine (Comparison.lift (Contexts.apply hK hmotive hlv)).bind fun g g' hg => ?_
  refine (Comparison.lift (hS.evaluate hK ht)).bind fun v v' hv => ?_
  exact (Comparison.lift (Contexts.apply hK hg hv)).bind fun r r' hresult =>
    .of_ok (R := Typed K W) ⟨.indVec hlt ht hp hb hq, hresult⟩

end Patterns

end Worlds

end PieChecker
