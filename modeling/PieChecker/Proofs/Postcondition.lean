import PieChecker.Proofs.Simulation.Outcome
import PieChecker.Typing.Rules

set_option autoImplicit false

/-!
# How a computation may end

A postcondition of a computation that can fail has two parts: what is promised of its result,
and which errors it may end with. `Ends.bind` chains the postconditions of the steps of a
computation. Often only results matter: a computation `Yields` what it promises of its result,
whatever else it may end with.
-/

namespace PieChecker

section Ends

variable {ε δ α β : Type} {allowed : ε → Prop} {promised : α → Prop}

/-- A computation ends with a result as promised, or with an error that is allowed. -/
def Ends (allowed : ε → Prop) (promised : α → Prop) : Except ε α → Prop
  | .ok a => promised a
  | .error e => allowed e

namespace Ends

theorem of_ok {a : α} (h : promised a) : Ends allowed promised (.ok a) := h

/-- If nothing is promised after the errors that occur, only results matter. -/
theorem of_forall {r : Except ε α} (hok : ∀ a, r = .ok a → promised a)
    (herror : ∀ e, r = .error e → allowed e) :
    Ends allowed promised r := by
  cases r with
  | ok a => exact hok a rfl
  | error e => exact herror e rfl

theorem bind {next : β → Prop} {r : Except ε α} {f : α → Except ε β}
    (h : Ends allowed promised r) (hf : ∀ a, promised a → Ends allowed next (f a)) :
    Ends allowed next (r >>= f) := by
  cases r with
  | ok a => exact hf a h
  | error e => exact h

theorem mono {next : α → Prop} {r : Except ε α} (h : Ends allowed promised r)
    (imp : ∀ a, promised a → next a) :
    Ends allowed next r := by
  cases r with
  | ok a => exact imp a h
  | error e => exact h

theorem of_eq_ok {r : Except ε α} (h : Ends allowed promised r) {a : α} (hr : r = .ok a) :
    promised a := by
  rw [hr] at h
  exact h

theorem of_eq_error {r : Except ε α} (h : Ends allowed promised r) {e : ε} (hr : r = .error e) :
    allowed e := by
  rw [hr] at h
  exact h

/-- Where nothing is promised after errors, the result of a step need not matter. -/
theorem skip {next : β → Prop} {r : Except ε α} {f : α → Except ε β}
    (h : ∀ a, Ends (fun _ => True) next (f a)) :
    Ends (fun _ => True) next (r >>= f) := by
  cases r with
  | ok a => exact h a
  | error e => exact True.intro

end Ends

end Ends

/-- A computation that promises something of its result and nothing if it has none. -/
abbrev Yields {ε α : Type} (promised : α → Prop) (r : Except ε α) : Prop :=
  Ends (fun _ => True) promised r

namespace Yields

variable {ε α β : Type} {promised : α → Prop}

theorem of_forall {r : Except ε α} (h : ∀ a, r = .ok a → promised a) : Yields promised r :=
  Ends.of_forall h fun _ _ => True.intro

theorem result (r : Except ε α) : Yields (fun a => r = .ok a) r := of_forall fun _ h => h

/-- A promise for each index is a promise for all of them. -/
theorem all {ι : Sort _} {promised : ι → α → Prop} {r : Except ε α}
    (h : ∀ i, Yields (promised i) r) :
    Yields (fun a => ∀ i, promised i a) r :=
  of_forall fun _ ha i => (h i).of_eq_ok ha

/-- What a computation on terms gives, where rejections are possible. -/
theorem lift (r : Outcome α) :
    Yields (fun a => r = .ok a) (r.unrejected : Except (Interrupt ε) α) :=
  of_forall fun _ ha => Outcome.unrejected_eq_ok_iff.1 ha

theorem locate {r : Except (Interrupt Cause) α} (span : Span) (h : Yields promised r) :
    Yields promised (PieChecker.locate span r) := by
  cases r with
  | ok a => exact h
  | error e => exact True.intro

theorem locateError {r : Except Cause α} (span : Span) (h : Yields promised r) :
    Yields promised (PieChecker.locateError span r) := by
  cases r with
  | ok a => exact h
  | error e => exact True.intro

end Yields

namespace Scope

variable (S : Scope)

theorem rejectFormer_yields {α : Type} {promised : α → Prop} (E : Engine) (span : Span)
    (former : Former) (found : Value) : Yields promised (S.rejectFormer E span former found) :=
  (Yields.lift _).bind fun _ _ => True.intro

theorem rejectLength_yields {α : Type} {promised : α → Prop} (E : Engine) (span : Span)
    (shape : LengthShape) (length : Value) :
    Yields promised (S.rejectLength E span shape length) :=
  (Yields.lift _).bind fun _ _ => True.intro

end Scope

namespace Rules

variable {promised : Core → Prop} {E : Engine} {span : Span} {S : Scope}

/-- Reading as a type by checking against `U` changes errors only. -/
theorem asType_yields {check : Scope → Value → Checked Core}
    (h : Yields promised (check S .univ)) :
    Yields promised (asType span check S) := by
  rw [asType]
  split
  · exact True.intro
  · exact h

/-- To check an expression whose type can be found, it is elaborated as for finding the type. -/
theorem checkFound_yields {find : Scope → Checked (Core × Value)}
    (h : Yields (fun p => promised p.1) (find S)) (ty : Value) :
    Yields promised (checkFound E span find S ty) :=
  .skip fun _ => h.bind fun _ ht => .skip fun _ => .of_ok ht

variable {a : Part}

theorem findFormer_yields {α : Type} (h : Yields (fun p => promised p.1) (a.rules.synthesize S))
    (former : Former) (parts? : Value → Option α) :
    Yields (fun p => promised p.1) (findFormer E a former parts? S) := by
  refine h.bind fun _ ht => .skip fun ty => ?_
  split
  · exact .of_ok ht
  · exact S.rejectFormer_yields E a.span former ty

theorem findNonempty_yields (h : Yields (fun p => promised p.1) (a.rules.synthesize S)) :
    Yields (fun p => promised p.1) (findNonempty E a S) := by
  refine (findFormer_yields h .vec _).bind fun _ ht => .skip fun length => ?_
  split
  · exact .of_ok ht
  · exact S.rejectLength_yields E a.span .successor _

theorem checkMotive_yields {ty : Value} (h : Yields promised (a.rules.check S ty)) :
    Yields (fun p => promised p.1) (checkMotive E a S ty) := by
  unfold checkMotive
  split
  · rename_i motive hmotive
    exact .skip fun _ => .of_ok (h.of_eq_ok hmotive)
  · rename_i cause _
    cases cause with
    | typeMismatch | expectedFormer | notAType => exact .skip fun _ => True.intro
    | _ => exact True.intro
  · exact True.intro

end Rules

end PieChecker
