import PieChecker.Proofs.Nameless
import PieChecker.Proofs.Simulation.Outcome
import PieChecker.Typing.Rules

set_option autoImplicit false

/-!
# Checking agrees with finding types

The type of an expression is found or only checked, and which of the two is a matter of its
form. If a type is found, then checking the expression compares it with the expected one and
does nothing else. So an expression checks against the type found for it, against the types that
are the same, and against no others.
-/

namespace PieChecker

/-- A type that reads back is not delayed, or what it delays reads back to the same term. -/
theorem Value.exists_now_of_readBackType {strategy : Strategy} {fuel : Nat}
    {names : List String} {ty : Value} {t : Core}
    (h : ty.readBackType strategy fuel names = .ok t) :
    ∃ u, ty.now = .ok u ∧ u.readBackType strategy fuel names = .ok t := by
  cases fuel with
  | zero => cases h
  | succ fuel =>
    rw [readBackType] at h
    obtain ⟨u, hu, h⟩ := bind_eq_ok_iff.1 h
    -- A value that is still delayed has no read-back.
    have hnow : u.now = .ok u := by
      cases u with
      | delay _ => cases h
      | _ => rfl
    refine ⟨u, hu, ?_⟩
    rw [readBackType, hnow]
    exact h

namespace Context

variable {E : Engine} {Γ : Context}

/-- Comparing types that read back is comparing the terms that they read back to. -/
theorem sameType_of_readBackType {expected found : Value} {t u : Core}
    (ht : Γ.readBackType E expected = .ok t) (hu : Γ.readBackType E found = .ok u) :
    Γ.sameType E expected found =
      if t.alphaEquivalent u then .ok () else .error (.rejected (.typeMismatch t u)) := by
  unfold sameType
  rw [ht, hu]
  rfl

theorem sameType_eq_ok_iff {expected found : Value} :
    Γ.sameType E expected found = .ok () ↔
      ∃ t u, Γ.readBackType E expected = .ok t ∧ Γ.readBackType E found = .ok u ∧
      t.alphaEquivalent u = true := by
  constructor
  · intro h
    obtain ⟨t, ht, h'⟩ := bind_eq_ok_iff.1 h
    obtain ⟨u, hu, -⟩ := bind_eq_ok_iff.1 h'
    have ht : Γ.readBackType E expected = .ok t := Outcome.unrejected_eq_ok_iff.1 ht
    have hu : Γ.readBackType E found = .ok u := Outcome.unrejected_eq_ok_iff.1 hu
    rw [sameType_of_readBackType ht hu] at h
    split at h
    · rename_i htu
      exact ⟨t, u, ht, hu, htu⟩
    · cases h
  · rintro ⟨t, u, ht, hu, htu⟩
    rw [sameType_of_readBackType ht hu, if_pos htu]

theorem sameType_refl {ty : Value} {t : Core} (h : Γ.readBackType E ty = .ok t) :
    Γ.sameType E ty ty = .ok () :=
  sameType_eq_ok_iff.2 ⟨t, t, h, h, t.alphaEquivalent_refl⟩

theorem sameType_symm {a b : Value} (h : Γ.sameType E a b = .ok ()) :
    Γ.sameType E b a = .ok () := by
  obtain ⟨t, u, ht, hu, htu⟩ := sameType_eq_ok_iff.1 h
  exact sameType_eq_ok_iff.2 ⟨u, t, hu, ht, Core.alphaEquivalent_symm htu⟩

theorem sameType_trans {a b c : Value} (hab : Γ.sameType E a b = .ok ())
    (hbc : Γ.sameType E b c = .ok ()) :
    Γ.sameType E a c = .ok () := by
  obtain ⟨t, u, ht, hu, htu⟩ := sameType_eq_ok_iff.1 hab
  obtain ⟨u', v, hu', hv, huv⟩ := sameType_eq_ok_iff.1 hbc
  obtain rfl : u = u' := Except.ok.inj (hu.symm.trans hu')
  exact sameType_eq_ok_iff.2 ⟨t, v, ht, hv, Core.alphaEquivalent_trans htu huv⟩

end Context

namespace Rules

variable {E : Engine}

/-- Checking by the type found compares it with the expected one, if that reads back. -/
theorem checkFound_of_synthesize {span : Span} {synthesize : Scope → Checked (Core × Value)}
    {S : Scope} {t : Core} {found ty : Value} {expected : Core}
    (h : synthesize S = .ok (t, found)) (hty : S.context.readBackType E ty = .ok expected) :
    checkFound E span synthesize S ty = (locate span (S.context.sameType E ty found)).map
      fun _ => t := by
  obtain ⟨u, hnow, hu⟩ := Value.exists_now_of_readBackType hty
  have hsame : S.context.sameType E u found = S.context.sameType E ty found := by
    unfold Context.sameType Context.readBackType Engine.readBackType
    rw [hu, show ty.readBackType _ _ _ = _ from hty]
  calc checkFound E span synthesize S ty
      = (do locate span (S.context.sameType E u found); return t) := by
        unfold checkFound
        rw [hnow, h]
        rfl
    _ = (do locate span (S.context.sameType E ty found); return t) := by rw [hsame]
    _ = (locate span (S.context.sameType E ty found)).map fun _ => t := by
        cases S.context.sameType E ty found <;> rfl

end Rules

/-- The forms of expressions are of two kinds: an expression is checked by finding its type, or
no type is found. -/
theorem Surface.Expr.checkFound_or_cannotSynthesize (E : Engine) (e : Surface.Expr) :
    (e.rules E).check = Rules.checkFound E e.span (e.rules E).synthesize ∨
      ∀ S, (e.rules E).synthesize S = reject e.span .cannotSynthesize := by
  cases e with
  | const span c => cases c <;> first | exact Or.inl rfl | exact Or.inr fun _ => rfl
  | unary span o a => cases o <;> first | exact Or.inl rfl | exact Or.inr fun _ => rfl
  | binary span o a b => cases o <;> first | exact Or.inl rfl | exact Or.inr fun _ => rfl
  | ternary span o a b c => cases o <;> exact Or.inl rfl
  | quaternary span o a b c d => cases o <;> exact Or.inl rfl
  | todo | lambda => exact Or.inr fun _ => rfl
  | _ => exact Or.inl rfl

namespace Scope

variable {E : Engine} {S : Scope} {e : Surface.Expr} {t : Core} {found : Value}

/-- Checking an expression whose type is found compares the type found with the expected one, if
that reads back. -/
theorem check_of_synthesize (h : (e.rules E).synthesize S = .ok (t, found)) {ty : Value}
    {expected : Core} (hty : S.context.readBackType E ty = .ok expected) :
    (e.rules E).check S ty =
      (locate e.span (S.context.sameType E ty found)).map fun _ => t := by
  rcases e.checkFound_or_cannotSynthesize E with hcheck | hreject
  · rw [hcheck]
    exact Rules.checkFound_of_synthesize h hty
  · cases (hreject S).symm.trans h

theorem check_of_sameType (h : (e.rules E).synthesize S = .ok (t, found)) {ty : Value}
    (hsame : S.context.sameType E ty found = .ok ()) : (e.rules E).check S ty = .ok t := by
  obtain ⟨expected, _, hty, _, _⟩ := Context.sameType_eq_ok_iff.1 hsame
  rw [check_of_synthesize h hty, hsame]
  rfl

theorem sameType_of_check (h : (e.rules E).synthesize S = .ok (t, found)) {ty : Value}
    {expected u : Core} (hty : S.context.readBackType E ty = .ok expected)
    (hcheck : (e.rules E).check S ty = .ok u) :
    S.context.sameType E ty found = .ok () := by
  rw [check_of_synthesize h hty] at hcheck
  cases hsame : S.context.sameType E ty found with
  | ok _ => rfl
  | error _ =>
    rw [hsame] at hcheck
    cases hcheck

theorem check_of_not_sameType (h : (e.rules E).synthesize S = .ok (t, found)) {ty : Value}
    {expected u : Core} (hty : S.context.readBackType E ty = .ok expected)
    (hfound : S.context.readBackType E found = .ok u)
    (hsame : S.context.sameType E ty found ≠ .ok ()) :
    (e.rules E).check S ty = .error (.rejected ⟨e.span, .typeMismatch expected u⟩) := by
  rw [Context.sameType_of_readBackType hty hfound] at hsame
  have hne : ¬ expected.alphaEquivalent u = true := fun heq => hsame (if_pos heq)
  rw [check_of_synthesize h hty, Context.sameType_of_readBackType hty hfound, if_neg hne]
  rfl

/-- Checking agrees with finding types, in every scope. An expression whose type is found checks
against the types that are the same as the type found, always with the same term, and any other
type is a mismatch at the expression. In particular it checks against the type found, and all
types that it checks against are the same. -/
theorem checking_agrees (h : (e.rules E).synthesize S = .ok (t, found)) :
    (∀ ty expected foundTerm,
      S.context.readBackType E ty = .ok expected → S.context.readBackType E found =
        .ok foundTerm →
      (S.context.sameType E ty found = .ok () → (e.rules E).check S ty = .ok t) ∧
      (S.context.sameType E ty found ≠ .ok () →
        (e.rules E).check S ty = .error
        (.rejected ⟨e.span, .typeMismatch expected foundTerm⟩))) ∧
    (∀ foundTerm, S.context.readBackType E found = .ok foundTerm →
      (e.rules E).check S found = .ok t) ∧
    ∀ ty ty' expected expected' u u',
      S.context.readBackType E ty = .ok expected → S.context.readBackType E ty' =
        .ok expected' →
      (e.rules E).check S ty = .ok u → (e.rules E).check S ty' = .ok u' →
      S.context.sameType E ty ty' = .ok () := by
  refine ⟨?_, ?_, ?_⟩
  · intro ty expected foundTerm hty hfound
    exact ⟨check_of_sameType h, check_of_not_sameType h hty hfound⟩
  · intro foundTerm hfound
    exact check_of_sameType h (Context.sameType_refl hfound)
  · intro ty ty' expected expected' u u' hty hty' hcheck hcheck'
    have hsame := sameType_of_check h hty hcheck
    have hsame' := sameType_of_check h hty' hcheck'
    exact Context.sameType_trans hsame (Context.sameType_symm hsame')

/-- The expression `(the (-> Nat Nat) (λ (y) (add1 y)))`. -/
def successor : Surface.Expr :=
  .binary ⟨0, 36⟩ .the (.arrow ⟨5, 17⟩ (.const ⟨9, 12⟩ .nat) [.const ⟨13, 16⟩ .nat])
    (.lambda ⟨18, 35⟩ [⟨⟨23, 24⟩, "y"⟩] (.unary ⟨26, 34⟩ .add1 (.var ⟨32, 33⟩ "y")))

/-- A function from numbers to numbers checks against their type under another bound name, and
not against lists. -/
theorem checking_agrees_successor :
    ∃ t found, (successor.rules ⟨.onDemand, 9⟩).synthesize (.ofContext .empty) =
      .ok (t, found) ∧
      (successor.rules ⟨.onDemand, 9⟩).check (.ofContext .empty)
      (.arrow "z" .nat .nat) = .ok t ∧
      (successor.rules ⟨.onDemand, 9⟩).check (.ofContext .empty) (.list .nat) =
        .error (.rejected ⟨⟨0, 36⟩, .typeMismatch (.unary .list .nat) (.pi "x" .nat .nat)⟩) :=
  ⟨_, _, rfl, ((checking_agrees rfl).1 _ _ _ rfl rfl).1 rfl,
    ((checking_agrees rfl).1 _ _ _ rfl rfl).2 nofun⟩

end Scope

end PieChecker
