import PieChecker.Proofs.Bidirectional
import PieChecker.Proofs.Relocation

set_option autoImplicit false

/-!
# Checking against `U` and reading as a type

There are two ways to require that an expression is a type: to check it against `U`, and to read
it as a type. A type former takes the two ways down to its parts, each part being checked
against `U` or read as a type. The second way accepts more, since `U` is a type and has no type.
Where both accept an expression they elaborate it to the same term.
-/

namespace PieChecker

/-! ## Computations that accept no less -/

namespace Checked

variable {α β : Type}

/-- Every result of the first computation is the result of the second. -/
def Included (r r' : Checked α) : Prop := ∀ a, r = .ok a → r' = .ok a

theorem Included.refl (r : Checked α) : r.Included r := fun _ h => h

theorem Included.bind {r r' : Checked α} {f f' : α → Checked β} (h : r.Included r')
    (hf : ∀ a, (f a).Included (f' a)) : Included (r >>= f) (r' >>= f') := by
  intro b hb
  obtain ⟨a, ha, hfa⟩ := bind_eq_ok_iff.1 hb
  exact bind_eq_ok_iff.2 ⟨a, h a ha, hf a b hfa⟩

end Checked

open Checked

namespace Rules

/-- The two readings of an expression as a type agree. What is found of type `U` is the term
that is read as a type, if one is: with little fuel, the comparison with `U` may still stop. -/
structure ReadAlike (r : Rules) : Prop where
  check : ∀ S ty t, ty.now = .ok .univ → r.check S ty = .ok t → r.isType S = .ok t
  synthesize : ∀ S t t', r.synthesize S = .ok (t, .univ) → r.isType S = .ok t' → t' = t

theorem ReadAlike.component {a : Part} (ha : a.rules.ReadAlike) (S : Scope) :
    (a.component .ofUniverse S).Included (a.component .type S) := by
  intro t ht
  exact ha.check S .univ t rfl ht

section Patterns

variable {E : Engine} {span : Span}

/-- Reading as a type by checking against `U` changes errors only. -/
theorem asType_eq_ok_iff {check : Scope → Value → Checked Core} {S : Scope} {t : Core} :
    asType span check S = .ok t ↔ check S .univ = .ok t := by
  unfold asType
  split
  · rename_i hcheck
    rw [hcheck]
    exact ⟨nofun, nofun⟩
  · exact Iff.rfl

theorem checkFound_of_now {find : Scope → Checked (Core × Value)} {S : Scope} {ty u : Value}
    (hty : ty.now = .ok u) (hu : u.now = .ok u) :
    checkFound E span find S ty = checkFound E span find S u := by
  unfold checkFound
  rw [hty, hu]

/-- Checking by the type found returns the term that was found. -/
theorem exists_synthesize_of_checkFound {find : Scope → Checked (Core × Value)} {S : Scope}
    {ty : Value} {t : Core} (h : checkFound E span find S ty = .ok t) :
    ∃ found, find S = .ok (t, found) := by
  obtain ⟨u, -, h⟩ := bind_eq_ok_iff.1 h
  obtain ⟨⟨t', found⟩, hfind, h⟩ := bind_eq_ok_iff.1 h
  obtain ⟨-, -, h⟩ := bind_eq_ok_iff.1 h
  cases h
  exact ⟨found, hfind⟩

theorem inferred_readAlike (find : Scope → Checked (Core × Value)) :
    (inferred E span find).ReadAlike where
  check S ty t hty h := by
    have hcheck : checkFound E span find S .univ = .ok t := by
      rw [← checkFound_of_now hty rfl]
      exact h
    exact asType_eq_ok_iff.2 hcheck
  synthesize S t t' h h' := by
    obtain ⟨found, hfind⟩ := exists_synthesize_of_checkFound (asType_eq_ok_iff.1 h')
    cases h.symm.trans hfind
    rfl

theorem checked_readAlike (check : Scope → Value → Checked Core) :
    (checked span check).ReadAlike where
  check S ty t hty h := by
    obtain ⟨u, hu, h⟩ := bind_eq_ok_iff.1 h
    cases hty.symm.trans (Outcome.unrejected_eq_ok_iff.1 hu)
    exact asType_eq_ok_iff.2 h
  synthesize S t t' h _ := nomatch h

theorem univ_readAlike : (univ E span).ReadAlike where
  check S ty t _ h := by
    have hcheck : checkFound E span (univ E span).synthesize S ty = .ok t := h
    obtain ⟨found, hfind⟩ := exists_synthesize_of_checkFound hcheck
    cases hfind
  synthesize S t t' h _ := nomatch h

theorem former_readAlike {build : Component → Scope → Checked Core}
    (h : ∀ S, (build .ofUniverse S).Included (build .type S)) :
    (former E span build).ReadAlike where
  check S ty t _ hcheck := by
    have hcheck : checkFound E span (former E span build).synthesize S ty = .ok t := hcheck
    obtain ⟨found, hfind⟩ := exists_synthesize_of_checkFound hcheck
    obtain ⟨u, hbuild, hpair⟩ := bind_eq_ok_iff.1 hfind
    cases hpair
    exact h S t hbuild
  synthesize S t t' hfind htype := by
    obtain ⟨u, hbuild, hpair⟩ := bind_eq_ok_iff.1 hfind
    cases hpair
    cases htype.symm.trans (h S t hbuild)
    rfl

end Patterns

/-! ## Binders -/

section Binders

variable {E : Engine} {q : Quantifier}

theorem nondependent_included {domain : Part} {rest : List Part} (hd : domain.rules.ReadAlike)
    (hr : ∀ a ∈ rest, a.rules.ReadAlike) (S : Scope) :
    (nondependent E q .ofUniverse domain rest S).Included
    (nondependent E q .type domain rest S) := by
  induction rest generalizing domain S with
  | nil => exact hd.component S
  | cons codomain rest ih =>
    unfold nondependent
    refine (Included.refl _).bind fun x => (hd.component S).bind fun base =>
      (Included.refl _).bind fun value => ?_
    refine (Included.refl _).bind fun inner => Included.bind ?_ fun _ => Included.refl _
    exact ih (hr codomain (List.mem_cons_self ..))
      (fun a ha => hr a (List.mem_cons_of_mem _ ha)) inner

theorem telescope_included {body : Part} {binders : List (Surface.Site × Part)}
    (hbody : body.rules.ReadAlike) (hb : ∀ b ∈ binders, b.2.rules.ReadAlike) (S : Scope) :
    (telescope E q .ofUniverse body binders S).Included
    (telescope E q .type body binders S) := by
  induction binders generalizing S with
  | nil => exact hbody.component S
  | cons binder binders ih =>
    obtain ⟨site, ty⟩ := binder
    unfold telescope
    refine ((hb _ (List.mem_cons_self ..)).component S).bind fun base => (Included.refl _).bind
      fun value => ?_
    refine (Included.refl _).bind fun bound => Included.bind ?_ fun _ => Included.refl _
    exact ih (fun b h => hb b (List.mem_cons_of_mem _ h)) bound.2

end Binders

/-! ## Operators -/

section Operators

variable {E : Engine} {span : Span}

theorem const_readAlike (c : Const) : (const E span c).ReadAlike := by
  cases c with
  | univ => exact univ_readAlike
  | nat | atom | trivial | absurd =>
    rw [const]
    exact former_readAlike fun S => Included.refl _
  | zero | sole => exact inferred_readAlike _
  | nil | vecnil => exact checked_readAlike _

theorem unary_readAlike (o : Unary) {a : Part} (ha : a.rules.ReadAlike) :
    (unary E span o a).ReadAlike := by
  cases o with
  | list =>
    rw [unary]
    exact former_readAlike fun S => (ha.component S).bind fun _ => Included.refl _
  | add1 | car | cdr | symm | head | tail => exact inferred_readAlike _
  | same | left | right => exact checked_readAlike _

theorem binary_readAlike (o : Surface.Binary) {a b : Part} (ha : a.rules.ReadAlike)
    (hb : b.rules.ReadAlike) :
    (binary E span o a b).ReadAlike := by
  cases o with
  | pair =>
    rw [binary]
    refine former_readAlike fun S => nondependent_included ha ?_ S
    intro c hc
    cases List.mem_singleton.1 hc
    exact hb
  | vec =>
    rw [binary]
    exact former_readAlike fun S => (ha.component S).bind fun _ => Included.refl _
  | either =>
    rw [binary]
    exact former_readAlike fun S => (ha.component S).bind fun _ =>
      (hb.component S).bind fun _ => Included.refl _
  | the | listCons | indAbsurd | trans | cong => exact inferred_readAlike _
  | cons | vecCons => exact checked_readAlike _

theorem ternary_readAlike (o : Surface.Ternary) {a b c : Part} (ha : a.rules.ReadAlike) :
    (ternary E span o a b c).ReadAlike := by
  cases o with
  | equal =>
    rw [ternary]
    exact former_readAlike fun S => (ha.component S).bind fun _ => Included.refl _
  | whichNat | iterNat | recNat | recList | replace | indEq => exact inferred_readAlike _

theorem quaternary_readAlike (o : Surface.Quaternary) {a b c d : Part} :
    (quaternary E span o a b c d).ReadAlike := by
  cases o <;> exact inferred_readAlike _

end Operators

end Rules

/-- The two readings of every expression as a type agree. -/
theorem Surface.Expr.rules_readAlike (E : Engine) (e : Surface.Expr) :
    (e.rules E).ReadAlike := by
  induction e using Surface.Expr.induction with
  | const s c => exact Rules.const_readAlike c
  | todo s => exact Rules.checked_readAlike _
  | var | number | quote | indVec | apply => exact Rules.inferred_readAlike _
  | unary s o a iha => exact Rules.unary_readAlike o iha
  | binary s o a b iha ihb => exact Rules.binary_readAlike o iha ihb
  | ternary s o a b c iha ihb ihc => exact Rules.ternary_readAlike o iha
  | quaternary s o a b c d => exact Rules.quaternary_readAlike o
  | arrow s domain rest ihd ihr =>
    rw [rules]
    refine Rules.former_readAlike fun S => Rules.nondependent_included ihd ?_ S
    intro a ha
    rw [partsOfList_eq] at ha
    obtain ⟨e, he, rfl⟩ := List.mem_map.1 ha
    exact ihr e he
  | quant s q binders body ihb ih =>
    rw [rules]
    refine Rules.former_readAlike fun S => Rules.telescope_included ih ?_ S
    intro b hb
    rw [partsOfBinders_eq] at hb
    obtain ⟨binder, hbinder, rfl⟩ := List.mem_map.1 hb
    exact ihb binder hbinder
  | lambda s parameters body ih => exact Rules.checked_readAlike _

namespace Scope

/-- The two readings of types agree in every scope. An expression that checks against `U`,
however delayed, is read as a type, with the same term. So everything whose type is found to be
`U` is a type. And if the parts of a type former can be read in both ways, then the two ways
lead to one term. -/
theorem type_readings_agree (E : Engine) (S : Scope) (e : Surface.Expr) :
    (∀ ty t, ty.now = .ok .univ → (e.rules E).check S ty = .ok t →
      (e.rules E).isType S = .ok t) ∧
    (∀ t found, (e.rules E).synthesize S = .ok (t, found) →
      S.context.sameType E .univ found = .ok () → (e.rules E).isType S = .ok t) ∧
    ∀ build, e.rules E = Rules.former E e.span build →
      ∀ t t', build .ofUniverse S = .ok t → build .type S = .ok t' → t' = t := by
  have alike : (e.rules E).ReadAlike := e.rules_readAlike E
  refine ⟨alike.check S, ?_, ?_⟩
  · intro t found hfind hsame
    exact alike.check S .univ t rfl (check_of_sameType hfind hsame)
  · intro build hbuild t t' ht ht'
    rw [hbuild] at alike
    exact alike.synthesize S t t' (bind_eq_ok_iff.2 ⟨t, ht, rfl⟩) ht'

/-- The expression `(Σ ((n Nat)) (Pair (Vec Nat n) (= Nat n n)))`. -/
def measured : Surface.Expr :=
  .quant ⟨0, 45⟩ .sigma [(⟨⟨6, 7⟩, "n"⟩, .const ⟨8, 11⟩ .nat)]
    (.binary ⟨14, 44⟩ .pair
      (.binary ⟨20, 31⟩ .vec (.const ⟨25, 28⟩ .nat) (.var ⟨29, 30⟩ "n"))
      (.ternary ⟨32, 43⟩ .equal (.const ⟨35, 38⟩ .nat) (.var ⟨39, 40⟩ "n") (.var ⟨41, 42⟩ "n")))

/-- A type with a named binder and an unnamed one reads alike in the two ways. -/
theorem type_readings_agree_measured :
    ∃ t, (measured.rules ⟨.onDemand, 9⟩).check (.ofContext .empty) .univ = .ok t ∧
      (measured.rules ⟨.onDemand, 9⟩).isType (.ofContext .empty) = .ok t ∧
      (measured.rules ⟨.onDemand, 9⟩).synthesize (.ofContext .empty) = .ok (t, .univ) ∧
      t = .quant .sigma "n" .nat (.quant .sigma "x" (.binary .vec .nat (.var "n"))
        (.ternary .equal .nat (.var "n") (.var "n"))) :=
  ⟨_, rfl, (type_readings_agree ⟨.onDemand, 9⟩ (.ofContext .empty) measured).1 .univ _ rfl rfl,
    rfl, rfl⟩

end Scope

end PieChecker
