import PieChecker.Proofs.Postcondition
import PieChecker.Proofs.ScopeSafety

set_option autoImplicit false

/-!
# How a run may stop

A run that is neither accepted nor rejected stops early. Nothing that is processed in a session
looks for a name without a value, so a run does not stop for that reason. It may stop because a
value does not have the shape that its type demands, though: the type that is found for
`(cong p f)` takes all results of `f` to have the type of the first one, and no rule asks
whether that is so.
-/

namespace PieChecker

open Likeness

section Bound

variable {strategy : Strategy} {α : Type} {R : α → α → Prop}

/-- The computation does not stop at a name without a value. -/
abbrev EndsBound {ε : Type} (promised : α → Prop) (r : Except (Interrupt ε) α) : Prop :=
  Ends (fun e => e ≠ .stopped .unbound) promised r

theorem Worlds.Checked.endsBound {𝒲 : Worlds (.upToNames strategy)} {r : PieChecker.Checked α}
    (h : 𝒲.Checked R r r) : EndsBound (fun a => R a a) r := by
  refine .of_forall (fun a ha => h.of_eq_ok ha ha) ?_
  rintro _ hr rfl
  exact h.ne_unbound hr

theorem Comparison.endsBound {ε : Type} {r : Outcome α}
    (h : (Comparison.upToNames strategy).Outcomes R r r) :
    EndsBound (fun a => R a a) (r.unrejected : Except (Interrupt ε) α) := by
  cases r with
  | ok a => exact h
  | error s =>
    rintro ⟨⟩
    exact Comparison.ne_unbound h rfl

end Bound

namespace Context

variable {strategy : Strategy} {Γ : Context}

theorem Scoped.convert_endsBound (h : Γ.Scoped (.upToNames strategy)) (n : Nat) {ty l r : Value}
    (hty : (renamed (.upToNames strategy) Γ.inScope).value ty ty)
    (hl : (renamed (.upToNames strategy) Γ.inScope).value l l)
    (hr : (renamed (.upToNames strategy) Γ.inScope).value r r) (span : Span) :
    EndsBound (fun _ => True) (locate span (Γ.convert ⟨strategy, n⟩ ty l r)) := by
  have hcomparable := Worlds.comparable_upToNames strategy n n
  exact (Worlds.locate rfl (h.contexts.convert hcomparable hty hl hr)).endsBound

theorem Scoped.normalForm_itself (h : Γ.Scoped (.upToNames strategy)) (n : Nat) {t : Core}
    {ty : Value} (ht : Core.Related (.upToNames strategy) Γ.inScope t t)
    (hty : (renamed (.upToNames strategy) Γ.inScope).value ty ty) :
    (Comparison.upToNames strategy).Outcomes (fun _ _ => True) (Γ.normalForm ⟨strategy, n⟩ t ty)
      (Γ.normalForm ⟨strategy, n⟩ t ty) := by
  have hK := Worlds.comparable_upToNames strategy n n
  refine (h.contexts.evaluate hK ht).bind fun v v' hv => ?_
  refine (h.contexts.readBackType hK hty).bind fun _ _ _ => ?_
  exact (h.contexts.readBack hK hty hv).bind fun _ _ _ => True.intro

/-- Processing a form does not stop at a name without a value. -/
theorem Scoped.process_endsBound (h : Γ.Scoped (.upToNames strategy)) (n : Nat)
    (form : Surface.Form) :
    EndsBound (fun _ => True) (Γ.process ⟨strategy, n⟩ form) := by
  have hK := Worlds.comparable_upToNames strategy n n
  have evaluates {t : Core} (ht : Core.Related (.upToNames strategy) Γ.inScope t t) :
      EndsBound (fun v => (renamed (.upToNames strategy) Γ.inScope).value v v)
        ((Γ.evaluate ⟨strategy, n⟩ t).unrejected : Checked Value) :=
    Comparison.endsBound (h.contexts.evaluate hK ht)
  cases form with
  | claim site ty =>
    rw [Context.process]
    split
    · exact fun h => by cases h
    · refine (h.readings_self n ty).isType.endsBound.bind fun t ht => ?_
      exact (evaluates ht).bind fun v hv => True.intro
  | define site e =>
    rw [Context.process]
    split
    · rename_i ty hclaim
      obtain ⟨before, after, hsplit, _⟩ := List.lookup_eq_some_iff.1 hclaim
      have hty : (renamed (.upToNames strategy) Γ.inScope).value ty ty :=
        h.types (x := site.name) (b := .claim ty) (by simp [hsplit])
      refine ((h.readings_self n e).check hty).endsBound.bind fun t ht => ?_
      exact (evaluates ht).bind fun v hv => True.intro
    · exact fun h => by cases h
    · exact fun h => by cases h
  | checkSame ty left right =>
    rw [Context.process]
    refine (h.readings_self n ty).isType.endsBound.bind fun t ht =>
      (evaluates ht).bind fun T hT => ?_
    refine ((h.readings_self n left).check hT).endsBound.bind fun l hl => ?_
    refine ((h.readings_self n right).check hT).endsBound.bind fun r hr => ?_
    refine (evaluates hl).bind fun v hv => (evaluates hr).bind fun w hw => ?_
    exact (h.convert_endsBound n hT hv hw right.span).bind fun _ _ => True.intro
  | expression e =>
    have hnormal : EndsBound (fun _ => True) (Γ.normalize ⟨strategy, n⟩ e) :=
      (h.readings_self n e).synthesize.endsBound.bind fun _ hfound =>
        Comparison.endsBound (h.normalForm_itself n hfound.1 hfound.2)
    exact hnormal.bind fun _ _ => True.intro

/-- No form of a program makes a run stop at a name without a value. -/
theorem Reachable.processAll_ne_unbound (hΓ : Γ.Reachable strategy) (n : Nat)
    (forms : List Surface.Form) :
    (Γ.processAll ⟨strategy, n⟩ forms).interrupt ≠ some (.stopped .unbound) := by
  induction forms generalizing Γ with
  | nil => nofun
  | cons form forms ih =>
    rw [Context.processAll]
    split
    case h_1 hform => exact ih (hΓ.process hform)
    case h_2 interrupt hform =>
      rintro ⟨⟩
      exact (hΓ.scoped.process_endsBound n form).of_eq_error hform rfl

/-! ## A function with results of different types -/

/-- What the following text is read as. The function `f` gives a number for 0 and an atom for
all other numbers, and `g` applies it to both sides of an equality.
```
(claim f (Π ((n Nat)) (which-Nat n Nat (λ (m) Atom))))
(define f (λ (n) (ind-Nat n (λ (k) (which-Nat k Nat (λ (m) Atom))) 0 (λ (m ih) 'a))))
(claim g (-> (= Nat 0 1) Nat))
(define g (λ (p) (cong p f)))
``` -/
def congruenceOfDependent : List Surface.Form :=
  [.claim ⟨⟨7, 8⟩, "f"⟩ (.quant ⟨9, 55⟩ .pi [(⟨⟨15, 16⟩, "n"⟩, .const ⟨17, 20⟩ .nat)]
      (.ternary ⟨23, 54⟩ .whichNat (.var ⟨34, 35⟩ "n") (.const ⟨36, 39⟩ .nat)
        (.lambda ⟨40, 53⟩ [⟨⟨45, 46⟩, "m"⟩] (.const ⟨48, 52⟩ .atom)))),
    .define ⟨⟨65, 66⟩, "f"⟩ (.lambda ⟨67, 145⟩ [⟨⟨72, 73⟩, "n"⟩]
      (.quaternary ⟨75, 144⟩ .indNat (.var ⟨84, 85⟩ "n")
        (.lambda ⟨86, 126⟩ [⟨⟨91, 92⟩, "k"⟩]
          (.ternary ⟨94, 125⟩ .whichNat (.var ⟨105, 106⟩ "k") (.const ⟨107, 110⟩ .nat)
            (.lambda ⟨111, 124⟩ [⟨⟨116, 117⟩, "m"⟩] (.const ⟨119, 123⟩ .atom))))
        (.number ⟨127, 128⟩ 0)
        (.lambda ⟨129, 143⟩ [⟨⟨134, 135⟩, "m"⟩, ⟨⟨136, 138⟩, "ih"⟩] (.quote ⟨140, 142⟩ "a")))),
    .claim ⟨⟨154, 155⟩, "g"⟩ (.arrow ⟨156, 176⟩
      (.ternary ⟨160, 171⟩ .equal (.const ⟨163, 166⟩ .nat) (.number ⟨167, 168⟩ 0)
        (.number ⟨169, 170⟩ 1))
      [.const ⟨172, 175⟩ .nat]),
    .define ⟨⟨186, 187⟩, "g"⟩ (.lambda ⟨188, 207⟩ [⟨⟨193, 194⟩, "p"⟩]
      (.binary ⟨196, 206⟩ .cong (.var ⟨202, 203⟩ "p") (.var ⟨204, 205⟩ "f")))]

/-- A run can break: to compare the type of `(cong p f)` with the expected one, the atom that
`f` gives for 1 is read back as a number. -/
theorem run_breaks_at_cong :
    (Context.empty.processAll .standard congruenceOfDependent).interrupt =
      some (.stopped .broken) :=
  rfl

/-- Claims of `p`, a proof that 0 equals 1, and of `t`, which are left unfinished, and of a
function `g` whose results are functions on `Trivial` at 0 and functions on numbers
elsewhere. -/
def congruenceOfFunctions : List Surface.Form :=
  [.claim ⟨⟨7, 8⟩, "p"⟩
      (.ternary ⟨9, 20⟩ .equal (.const ⟨12, 15⟩ .nat) (.number ⟨16, 17⟩ 0)
        (.number ⟨18, 19⟩ 1)),
    .define ⟨⟨30, 31⟩, "p"⟩ (.todo ⟨32, 36⟩),
    .claim ⟨⟨45, 46⟩, "t"⟩ (.const ⟨47, 54⟩ .trivial),
    .define ⟨⟨64, 65⟩, "t"⟩ (.todo ⟨66, 70⟩),
    .claim ⟨⟨79, 80⟩, "g"⟩ (.quant ⟨81, 139⟩ .pi [(⟨⟨87, 88⟩, "k"⟩, .const ⟨89, 92⟩ .nat)]
      (.arrow ⟨95, 138⟩
        (.ternary ⟨99, 133⟩ .whichNat (.var ⟨110, 111⟩ "k") (.const ⟨112, 119⟩ .trivial)
          (.lambda ⟨120, 132⟩ [⟨⟨125, 126⟩, "m"⟩] (.const ⟨128, 131⟩ .nat)))
        [.const ⟨134, 137⟩ .nat])),
    .define ⟨⟨149, 150⟩, "g"⟩ (.lambda ⟨151, 276⟩ [⟨⟨156, 157⟩, "k"⟩]
      (.quaternary ⟨159, 275⟩ .indNat (.var ⟨168, 169⟩ "k")
        (.lambda ⟨170, 222⟩ [⟨⟨175, 176⟩, "j"⟩]
          (.arrow ⟨178, 221⟩
            (.ternary ⟨182, 216⟩ .whichNat (.var ⟨193, 194⟩ "j") (.const ⟨195, 202⟩ .trivial)
              (.lambda ⟨203, 215⟩ [⟨⟨208, 209⟩, "m"⟩] (.const ⟨211, 214⟩ .nat)))
            [.const ⟨217, 220⟩ .nat]))
        (.lambda ⟨223, 233⟩ [⟨⟨228, 229⟩, "x"⟩] (.number ⟨231, 232⟩ 0))
        (.lambda ⟨234, 274⟩ [⟨⟨239, 240⟩, "i"⟩, ⟨⟨241, 243⟩, "ih"⟩, ⟨⟨244, 245⟩, "x"⟩]
          (.ternary ⟨247, 273⟩ .whichNat (.var ⟨258, 259⟩ "x") (.number ⟨260, 261⟩ 0)
            (.lambda ⟨262, 272⟩ [⟨⟨267, 268⟩, "y"⟩] (.var ⟨270, 271⟩ "y"))))))]

/-- `(replace (cong p g) (λ (h) (which-Nat (h t) Nat (λ (_) Atom))) 0)`, in the session that
makes these claims. -/
def replacementByCongruence : Surface.Expr :=
  .ternary ⟨0, 67⟩ .replace (.binary ⟨9, 19⟩ .cong (.var ⟨15, 16⟩ "p") (.var ⟨17, 18⟩ "g"))
    (.lambda ⟨20, 64⟩ [⟨⟨25, 26⟩, "h"⟩]
      (.ternary ⟨28, 63⟩ .whichNat (.apply ⟨39, 44⟩ (.var ⟨40, 41⟩ "h") [.var ⟨42, 43⟩ "t"])
        (.const ⟨45, 48⟩ .nat) (.lambda ⟨49, 62⟩ [⟨⟨54, 55⟩, "_"⟩] (.const ⟨57, 61⟩ .atom))))
    (.number ⟨65, 66⟩ 0)

/-- A normal form need not be stable: the one that is returned here breaks as soon as it is
evaluated again. -/
theorem normal_form_breaks_again : ∃ Γ T n,
    Γ = (Context.empty.processAll .standard congruenceOfFunctions).context ∧
    Γ.normalize .standard replacementByCongruence = .ok (.the T n) ∧
    Γ.evaluate .standard n = .error .broken :=
  ⟨_, _, _, rfl, rfl, rfl⟩

end Context

end PieChecker
