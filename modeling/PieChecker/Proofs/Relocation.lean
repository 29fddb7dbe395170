import Mathlib.Logic.Function.Basic
import PieChecker.Proofs.Places
import PieChecker.Proofs.Simulation.Outcome
import PieChecker.Session

set_option autoImplicit false

/-!
# Elaboration does not depend on places

What an expression is elaborated to does not depend on where it was read from, except that its
unfinished parts remember their places. If the other places of an expression are moved, then the
checker accepts it as before, with the same terms and types, or rejects it as before, at the
place that the place of the rejection was moved to.

So relocating an expression is relocating the rejections of its rules. There is one equation for
each typing rule.
-/

namespace PieChecker

/-- Moves the place of a rejection. -/
def TypeError.relocate (f : Span → Span) (e : TypeError) : TypeError := ⟨f e.span, e.cause⟩

/-- Moves the place of the rejection, if a computation ends in one. -/
def relocateError {α : Type} (f : Span → Span) (r : Checked α) : Checked α :=
  r.mapError (Interrupt.map (TypeError.relocate f))

section Steps

variable {f : Span → Span} {α β : Type}

/-- A computation is relocated step by step. -/
theorem relocateError_bind {r r' : Checked α} {k k' : α → Checked β}
    (h : r' = relocateError f r) (hk : ∀ a, k' a = relocateError f (k a)) :
    r' >>= k' = relocateError f (r >>= k) := by
  subst h
  cases r with
  | ok a => exact hk a
  | error i => rfl

/-- What rejects nothing has no rejection to move. -/
theorem relocateError_lift (r : Outcome α) :
    (liftM r : Checked α) = relocateError f (liftM r) := by
  cases r <;> rfl

theorem relocateError_locate (s : Span) (r : Except (Interrupt Cause) α) :
    locate (f s) r = relocateError f (locate s r) := by
  rcases r with (c | stop) | a <;> rfl

theorem relocateError_locateError (s : Span) (r : Except Cause α) :
    locateError (f s) r = relocateError f (locateError s r) := by
  cases r <;> rfl

end Steps

namespace Scope

variable {f : Span → Span} {α : Type} (S : Scope) (E : Engine)

theorem bind_relocate (site : Surface.Site) (ty : Value) :
    S.bind (site.relocate f) ty = relocateError f (S.bind site ty) :=
  relocateError_bind (relocateError_lift _) fun _ =>
    relocateError_bind (relocateError_locateError _ _) fun _ => rfl

theorem bindHidden_relocate (x : String) (ty : Value) (s : Span) :
    S.bindHidden x ty (f s) = relocateError f (S.bindHidden x ty s) :=
  relocateError_bind (relocateError_locateError _ _) fun _ => rfl

theorem rejectFormer_relocate (s : Span) (former : Former) (found : Value) :
    (S.rejectFormer E (f s) former found : Checked α) = relocateError f
    (S.rejectFormer E s former found) :=
  relocateError_bind (relocateError_lift _) fun _ => rfl

theorem rejectLength_relocate (s : Span) (shape : LengthShape) (length : Value) :
    (S.rejectLength E (f s) shape length : Checked α) = relocateError f
    (S.rejectLength E s shape length) :=
  relocateError_bind (relocateError_lift _) fun _ => rfl

end Scope

/-- The readings of an expression with their rejections moved. -/
def Rules.relocate (f : Span → Span) (r : Rules) : Rules where
  synthesize S := relocateError f (r.synthesize S)
  check S ty := relocateError f (r.check S ty)
  isType S := relocateError f (r.isType S)

/-- A part of an expression moved to another place. -/
def Part.relocate (f : Span → Span) (a : Part) : Part := ⟨a.expr.relocate f, a.rules.relocate f⟩

theorem Part.span_relocate (f : Span → Span) (a : Part) : (a.relocate f).span = f a.span :=
  a.expr.span_relocate f

theorem Part.component_relocate (f : Span → Span) (a : Part) (c : Component) (S : Scope) :
    (a.relocate f).component c S = relocateError f (a.component c S) := by
  cases c <;> rfl

namespace Rules

variable {E : Engine} {f : Span → Span} {s : Span}

/-- Rules are relocated if their readings are. -/
theorem eq_relocate {r r' : Rules}
    (hfind : ∀ S, r'.synthesize S = relocateError f (r.synthesize S))
    (hcheck : ∀ S ty, r'.check S ty = relocateError f (r.check S ty))
    (htype : ∀ S, r'.isType S = relocateError f (r.isType S)) : r' = r.relocate f := by
  obtain ⟨find', check', type'⟩ := r'
  obtain rfl : find' = fun S => relocateError f (r.synthesize S) := funext hfind
  obtain rfl : check' = fun S ty => relocateError f (r.check S ty) :=
    funext fun S => funext fun ty => hcheck S ty
  obtain rfl : type' = fun S => relocateError f (r.isType S) := funext htype
  rfl

/-! ## The four patterns -/

section Patterns

variable (hf : Function.Injective f)

include hf

/-- A mismatch is at the expression itself exactly if it is so where the expression was moved
to. -/
theorem asType_relocate {check check' : Scope → Value → Checked Core} {S : Scope}
    (h : check' S .univ = relocateError f (check S .univ)) :
    asType (f s) check' S = relocateError f (asType s check S) := by
  unfold asType
  rw [h]
  rcases check S .univ with (⟨t, c⟩ | stop) | term
  · cases c with
    | typeMismatch expected found =>
      by_cases ht : t = s
      · subst ht
        simp [relocateError, Except.mapError, Interrupt.map, TypeError.relocate, reject]
      · have hne : ¬ f t = f s := fun heq => ht (hf heq)
        simp [relocateError, Except.mapError, Interrupt.map, TypeError.relocate,
          reject, ht, hne]
    | _ => rfl
  · rfl
  · rfl

omit hf in
theorem checkFound_relocate {find find' : Scope → Checked (Core × Value)} {S : Scope}
    (h : find' S = relocateError f (find S)) (ty : Value) :
    checkFound E (f s) find' S ty = relocateError f (checkFound E s find S ty) :=
  relocateError_bind (relocateError_lift _) fun _ => relocateError_bind h fun _ =>
    relocateError_bind (relocateError_locate _ _) fun _ => rfl

theorem inferred_relocate {find find' : Scope → Checked (Core × Value)}
    (h : ∀ S, find' S = relocateError f (find S)) :
    inferred E (f s) find' = (inferred E s find).relocate f := by
  have hcheck : ∀ S ty, checkFound E (f s) find' S ty =
      relocateError f (checkFound E s find S ty) :=
    fun S => checkFound_relocate (h S)
  exact eq_relocate h hcheck fun S => asType_relocate hf (hcheck S .univ)

omit hf in
theorem former_relocate {build build' : Component → Scope → Checked Core}
    (h : ∀ c S, build' c S = relocateError f (build c S)) :
    former E (f s) build' = (former E s build).relocate f := by
  have hfind : ∀ S, (former E (f s) build').synthesize S =
      relocateError f ((former E s build).synthesize S) :=
    fun S => relocateError_bind (h .ofUniverse S) fun _ => rfl
  exact eq_relocate hfind (fun S => checkFound_relocate (hfind S)) (h .type)

theorem checked_relocate {check check' : Scope → Value → Checked Core}
    (h : ∀ S ty, check' S ty = relocateError f (check S ty)) :
    checked (f s) check' = (checked s check).relocate f := by
  have hcheck : ∀ S ty, (checked (f s) check').check S ty =
      relocateError f ((checked s check).check S ty) :=
    fun S ty => relocateError_bind (relocateError_lift ty.now) fun T => h S T
  exact eq_relocate (fun _ => rfl) hcheck fun S => asType_relocate hf (hcheck S .univ)

omit hf in
theorem univ_relocate : univ E (f s) = (univ E s).relocate f := by
  have hfind : ∀ S, (univ E (f s)).synthesize S = relocateError f ((univ E s).synthesize S) :=
    fun _ => rfl
  exact eq_relocate hfind (fun S => checkFound_relocate (hfind S)) fun _ => rfl

end Patterns

/-! ## Parts with a type of a given form -/

theorem findFormer_relocate {α : Type} (a : Part) (former : Former) (parts? : Value → Option α)
    (S : Scope) :
    findFormer E (a.relocate f) former parts? S =
      relocateError f (findFormer E a former parts? S) := by
  refine relocateError_bind rfl fun ⟨t, ty⟩ =>
    relocateError_bind (relocateError_lift ty.now) fun T => ?_
  rw [a.span_relocate]
  cases parts? T with
  | some parts => rfl
  | none => exact S.rejectFormer_relocate E a.span former T

theorem findNonempty_relocate (a : Part) (S : Scope) :
    findNonempty E (a.relocate f) S = relocateError f (findNonempty E a S) := by
  refine relocateError_bind (findFormer_relocate a .vec _ S) fun ⟨t, entry, length⟩ => ?_
  refine relocateError_bind (relocateError_lift length.now) fun l => ?_
  rw [a.span_relocate]
  split
  · rfl
  · exact S.rejectLength_relocate E a.span .successor _

/-- A motive is blamed where it was moved to. -/
theorem checkMotive_relocate (a : Part) (S : Scope) (ty : Value) :
    checkMotive E (a.relocate f) S ty = relocateError f (checkMotive E a S ty) := by
  have hcheck : (a.relocate f).rules.check S ty = relocateError f (a.rules.check S ty) := rfl
  unfold checkMotive
  rw [hcheck]
  rcases a.rules.check S ty with (⟨t, c⟩ | stop) | motive
  · cases c with
    | typeMismatch | expectedFormer | notAType =>
      exact relocateError_bind (relocateError_lift _) fun _ => rfl
    | _ => rfl
  · rfl
  · exact relocateError_bind (relocateError_lift _) fun _ => rfl

/-! ## Binders -/

/-- Relocation keeps the names that occur in an expression, so a name is new before exactly if
it is new after. -/
theorem namesOf_relocate (f : Span → Span) (parts : List Part) :
    Surface.Expr.namesOfList ((parts.map (Part.relocate f)).map Part.expr) =
      Surface.Expr.namesOfList (parts.map Part.expr) := by
  simp [Surface.Expr.namesOfList_eq, List.flatMap_map, Part.relocate,
    Surface.Expr.names_relocate]

theorem nondependent_relocate (q : Quantifier) (c : Component) (domain : Part)
    (rest : List Part) (S : Scope) :
    nondependent E q c (domain.relocate f) (rest.map (Part.relocate f)) S =
      relocateError f (nondependent E q c domain rest S) := by
  induction rest generalizing domain S with
  | nil => exact domain.component_relocate f c S
  | cons codomain rest ih =>
    have hnames := namesOf_relocate f (codomain :: rest)
    rw [List.map_cons] at hnames
    rw [List.map_cons, nondependent, nondependent, hnames, domain.span_relocate]
    refine relocateError_bind (relocateError_lift _) fun x => ?_
    refine relocateError_bind (domain.component_relocate f c S) fun base => ?_
    refine relocateError_bind (relocateError_lift _) fun v => ?_
    refine relocateError_bind (S.bindHidden_relocate x v domain.span) fun inner => ?_
    exact relocateError_bind (ih codomain inner) fun _ => rfl

theorem telescope_relocate (q : Quantifier) (c : Component) (body : Part)
    (binders : List (Surface.Site × Part)) (S : Scope) :
    telescope E q c (body.relocate f)
      (binders.map fun b => (b.1.relocate f, b.2.relocate f)) S =
      relocateError f (telescope E q c body binders S) := by
  induction binders generalizing S with
  | nil => exact body.component_relocate f c S
  | cons binder binders ih =>
    obtain ⟨site, ty⟩ := binder
    refine relocateError_bind (ty.component_relocate f c S) fun base => ?_
    refine relocateError_bind (relocateError_lift _) fun v => ?_
    refine relocateError_bind (S.bind_relocate site v) fun ⟨x, inner⟩ => ?_
    exact relocateError_bind (ih inner) fun _ => rfl

theorem checkLambda_relocate (body : Part) (sites : List Surface.Site) (S : Scope)
    (ty : Value) :
    checkLambda E (f s) (body.relocate f) (sites.map (Surface.Site.relocate f)) S ty =
      relocateError f (checkLambda E s body sites S ty) := by
  induction sites generalizing S ty with
  | nil => rfl
  | cons site sites ih =>
    simp only [List.map_cons, checkLambda]
    split
    · rename_i base family
      refine relocateError_bind (S.bind_relocate site base) fun ⟨x, inner⟩ => ?_
      refine relocateError_bind (relocateError_lift _) fun r =>
        relocateError_bind (relocateError_lift r.now) fun T => ?_
      exact relocateError_bind (ih inner T) fun _ => rfl
    · exact S.rejectFormer_relocate E s .pi _

theorem applyTo_relocate (arguments : List Part) (S : Scope) (function : Core) (ty : Value) :
    applyTo E (f s) (arguments.map (Part.relocate f)) S function ty =
      relocateError f (applyTo E s arguments S function ty) := by
  induction arguments generalizing function ty with
  | nil => rfl
  | cons argument arguments ih =>
    refine relocateError_bind (relocateError_lift ty.now) fun T => ?_
    split
    · refine relocateError_bind rfl fun a =>
        relocateError_bind (relocateError_lift _) fun v => ?_
      exact relocateError_bind (relocateError_lift _) fun result =>
        ih (.apply function a) result
    · exact S.rejectFormer_relocate E s .pi _

/-! ## Rules by the number of parts -/

section Operators

variable (hf : Function.Injective f)

include hf

theorem const_relocate (c : Const) : const E (f s) c = (const E s c).relocate f := by
  cases c with
  | univ => exact univ_relocate
  | nat | atom | trivial | absurd =>
    rw [const, const]
    exact former_relocate fun _ _ => rfl
  | zero | sole => exact inferred_relocate hf fun _ => rfl
  | nil =>
    refine checked_relocate hf fun S ty => ?_
    split
    · rfl
    · exact S.rejectFormer_relocate E s .list _
  | vecnil =>
    refine checked_relocate hf fun S ty => ?_
    split
    · refine relocateError_bind (relocateError_lift _) fun l => ?_
      split
      · rfl
      · exact S.rejectLength_relocate E s .zero _
    · exact S.rejectFormer_relocate E s .vec _

theorem todo_relocate (hs : f s = s) : todo E (f s) = (todo E s).relocate f := by
  refine checked_relocate hf fun S ty => relocateError_bind (relocateError_lift _) fun t => ?_
  rw [hs]
  rfl

theorem var_relocate (x : String) : var E (f s) x = (var E s x).relocate f :=
  inferred_relocate hf fun _ => relocateError_bind (relocateError_locateError _ _) fun _ => rfl

theorem number_relocate (n : Nat) : number E (f s) n = (number E s n).relocate f := by
  refine inferred_relocate hf fun S => ?_
  split <;> rfl

theorem quote_relocate (a : String) : quote E (f s) a = (quote E s a).relocate f :=
  inferred_relocate hf fun _ => rfl

theorem unary_relocate (o : Unary) (a : Part) :
    unary E (f s) o (a.relocate f) = (unary E s o a).relocate f := by
  cases o with
  | add1 => exact inferred_relocate hf fun S => relocateError_bind rfl fun _ => rfl
  | car =>
    exact inferred_relocate hf fun S => relocateError_bind (findFormer_relocate a _ _ S)
      fun _ => rfl
  | cdr =>
    refine inferred_relocate hf fun S =>
      relocateError_bind (findFormer_relocate a _ _ S) fun _ => ?_
    refine relocateError_bind (relocateError_lift _) fun _ =>
      relocateError_bind (relocateError_lift _) fun _ => ?_
    exact relocateError_bind (relocateError_lift _) fun _ => rfl
  | list =>
    rw [unary, unary]
    exact former_relocate fun c S => relocateError_bind (a.component_relocate f c S)
      fun _ => rfl
  | same =>
    refine checked_relocate hf fun S ty => ?_
    split
    · refine relocateError_bind rfl fun t =>
        relocateError_bind (relocateError_lift _) fun v => ?_
      refine relocateError_bind (relocateError_locate _ _) fun _ => ?_
      exact relocateError_bind (relocateError_locate _ _) fun _ => rfl
    · exact S.rejectFormer_relocate E s .equal _
  | symm =>
    exact inferred_relocate hf fun S => relocateError_bind (findFormer_relocate a _ _ S)
      fun _ => rfl
  | head | tail =>
    exact inferred_relocate hf fun S => relocateError_bind (findNonempty_relocate a S)
      fun _ => rfl
  | left | right =>
    refine checked_relocate hf fun S ty => ?_
    split
    · exact relocateError_bind rfl fun _ => rfl
    · exact S.rejectFormer_relocate E s .either _

theorem binary_relocate (o : Surface.Binary) (a b : Part) :
    binary E (f s) o (a.relocate f) (b.relocate f) = (binary E s o a b).relocate f := by
  cases o with
  | the =>
    refine inferred_relocate hf fun S => relocateError_bind rfl fun ty => ?_
    exact relocateError_bind (relocateError_lift _) fun v => relocateError_bind rfl fun _ => rfl
  | pair =>
    rw [binary, binary]
    exact former_relocate fun c => nondependent_relocate .sigma c a [b]
  | cons =>
    refine checked_relocate hf fun S ty => ?_
    split
    · refine relocateError_bind rfl fun t =>
        relocateError_bind (relocateError_lift _) fun v => ?_
      exact relocateError_bind (relocateError_lift _) fun T =>
        relocateError_bind rfl fun _ => rfl
    · exact S.rejectFormer_relocate E s .sigma _
  | listCons =>
    exact inferred_relocate hf fun S => relocateError_bind rfl fun _ =>
      relocateError_bind rfl fun _ => rfl
  | indAbsurd =>
    refine inferred_relocate hf fun S => relocateError_bind rfl fun t =>
      relocateError_bind rfl fun p => ?_
    exact relocateError_bind (relocateError_lift _) fun _ => rfl
  | trans =>
    refine inferred_relocate hf fun S =>
      relocateError_bind (findFormer_relocate a _ _ S) fun _ => ?_
    refine relocateError_bind (findFormer_relocate b _ _ S) fun _ => ?_
    rw [b.span_relocate]
    refine relocateError_bind (relocateError_locate _ _) fun _ => ?_
    exact relocateError_bind (relocateError_locate _ _) fun _ => rfl
  | cong =>
    refine inferred_relocate hf fun S =>
      relocateError_bind (findFormer_relocate a _ _ S) fun _ => ?_
    refine relocateError_bind (findFormer_relocate b _ _ S) fun _ => ?_
    rw [b.span_relocate]
    refine relocateError_bind (relocateError_locate _ _) fun _ => ?_
    refine relocateError_bind (relocateError_lift _) fun _ =>
      relocateError_bind (relocateError_lift _) fun _ => ?_
    refine relocateError_bind (relocateError_lift _) fun _ =>
      relocateError_bind (relocateError_lift _) fun _ => ?_
    exact relocateError_bind (relocateError_lift _) fun _ => rfl
  | vec =>
    rw [binary, binary]
    exact former_relocate fun c S => relocateError_bind (a.component_relocate f c S) fun _ =>
      relocateError_bind rfl fun _ => rfl
  | vecCons =>
    refine checked_relocate hf fun S ty => ?_
    split
    · refine relocateError_bind (relocateError_lift _) fun l => ?_
      split
      · exact relocateError_bind rfl fun _ => relocateError_bind rfl fun _ => rfl
      · exact S.rejectLength_relocate E s .successor _
    · exact S.rejectFormer_relocate E s .vec _
  | either =>
    rw [binary, binary]
    exact former_relocate fun c S => relocateError_bind (a.component_relocate f c S) fun _ =>
      relocateError_bind (b.component_relocate f c S) fun _ => rfl

theorem natRecursor_relocate (o : Core.Quaternary) (stepType : Value → Value) (a b c : Part) :
    natRecursor E (f s) o stepType (a.relocate f) (b.relocate f) (c.relocate f) =
      (natRecursor E s o stepType a b c).relocate f := by
  refine inferred_relocate hf fun S => relocateError_bind rfl fun t =>
    relocateError_bind rfl fun ⟨b, result⟩ => ?_
  exact relocateError_bind rfl fun p => relocateError_bind (relocateError_lift _) fun _ => rfl

theorem ternary_relocate (o : Surface.Ternary) (a b c : Part) :
    ternary E (f s) o (a.relocate f) (b.relocate f) (c.relocate f) =
      (ternary E s o a b c).relocate f := by
  cases o with
  | whichNat | iterNat | recNat => exact natRecursor_relocate hf _ _ a b c
  | recList =>
    refine inferred_relocate hf fun S =>
      relocateError_bind (findFormer_relocate a _ _ S) fun _ => ?_
    refine relocateError_bind rfl fun _ => relocateError_bind rfl fun p => ?_
    exact relocateError_bind (relocateError_lift _) fun _ => rfl
  | equal =>
    rw [ternary, ternary]
    refine former_relocate fun component S =>
      relocateError_bind (a.component_relocate f component S) fun _ => ?_
    refine relocateError_bind (relocateError_lift _) fun _ => relocateError_bind rfl fun _ => ?_
    exact relocateError_bind rfl fun _ => rfl
  | replace =>
    refine inferred_relocate hf fun S =>
      relocateError_bind (findFormer_relocate a _ _ S) fun _ => ?_
    refine relocateError_bind (checkMotive_relocate b S _) fun _ => ?_
    refine relocateError_bind (relocateError_lift _) fun _ => relocateError_bind rfl fun _ => ?_
    exact relocateError_bind (relocateError_lift _) fun _ => rfl
  | indEq =>
    refine inferred_relocate hf fun S =>
      relocateError_bind (findFormer_relocate a _ _ S) fun _ => ?_
    refine relocateError_bind (checkMotive_relocate b S _) fun _ => ?_
    refine relocateError_bind (relocateError_lift _) fun _ =>
      relocateError_bind (relocateError_lift _) fun _ => ?_
    refine relocateError_bind rfl fun _ => relocateError_bind (relocateError_lift _) fun _ => ?_
    exact relocateError_bind (relocateError_lift _) fun _ =>
      relocateError_bind (relocateError_lift _) fun _ => rfl

theorem quaternary_relocate (o : Surface.Quaternary) (a b c d : Part) :
    quaternary E (f s) o (a.relocate f) (b.relocate f) (c.relocate f) (d.relocate f) =
      (quaternary E s o a b c d).relocate f := by
  cases o with
  | indNat =>
    refine inferred_relocate hf fun S => relocateError_bind rfl fun _ => ?_
    refine relocateError_bind (checkMotive_relocate b S _) fun _ => ?_
    refine relocateError_bind (relocateError_lift _) fun _ => relocateError_bind rfl fun _ => ?_
    refine relocateError_bind rfl fun _ => relocateError_bind (relocateError_lift _) fun _ => ?_
    exact relocateError_bind (relocateError_lift _) fun _ => rfl
  | indList =>
    refine inferred_relocate hf fun S =>
      relocateError_bind (findFormer_relocate a _ _ S) fun _ => ?_
    refine relocateError_bind (checkMotive_relocate b S _) fun _ => ?_
    refine relocateError_bind (relocateError_lift _) fun _ => relocateError_bind rfl fun _ => ?_
    refine relocateError_bind rfl fun _ => relocateError_bind (relocateError_lift _) fun _ => ?_
    exact relocateError_bind (relocateError_lift _) fun _ => rfl
  | indEither =>
    refine inferred_relocate hf fun S =>
      relocateError_bind (findFormer_relocate a _ _ S) fun _ => ?_
    refine relocateError_bind (checkMotive_relocate b S _) fun _ => ?_
    refine relocateError_bind rfl fun _ => relocateError_bind rfl fun _ => ?_
    exact relocateError_bind (relocateError_lift _) fun _ =>
      relocateError_bind (relocateError_lift _) fun _ => rfl

theorem indVec_relocate (l t p b q : Part) :
    indVec E (f s) (l.relocate f) (t.relocate f) (p.relocate f) (b.relocate f) (q.relocate f) =
      (indVec E s l t p b q).relocate f := by
  refine inferred_relocate hf fun S => relocateError_bind rfl fun _ => ?_
  refine relocateError_bind (relocateError_lift _) fun _ => ?_
  refine relocateError_bind (findFormer_relocate t _ _ S) fun _ => ?_
  rw [l.span_relocate]
  refine relocateError_bind (relocateError_locate _ _) fun _ => ?_
  refine relocateError_bind (checkMotive_relocate p S _) fun _ => ?_
  refine relocateError_bind (relocateError_lift _) fun _ =>
    relocateError_bind (relocateError_lift _) fun _ => ?_
  refine relocateError_bind rfl fun _ => relocateError_bind rfl fun _ => ?_
  refine relocateError_bind (relocateError_lift _) fun _ =>
    relocateError_bind (relocateError_lift _) fun _ => ?_
  exact relocateError_bind (relocateError_lift _) fun _ => rfl

end Operators

end Rules

/-! ## Expressions -/

namespace Surface.Expr

variable {E : Engine} {f : Span → Span}

theorem partsOfList_eq (E : Engine) (es : List Expr) :
    partsOfList E es = es.map fun e => ⟨e, e.rules E⟩ := by
  induction es with
  | nil => rw [partsOfList, List.map_nil]
  | cons e es ih => rw [partsOfList, ih, List.map_cons]

theorem partsOfBinders_eq (E : Engine) (binders : List (Site × Expr)) :
    partsOfBinders E binders = binders.map fun b => (b.1, ⟨b.2, b.2.rules E⟩) := by
  induction binders with
  | nil => rw [partsOfBinders, List.map_nil]
  | cons b binders ih => rw [partsOfBinders, ih, List.map_cons]

theorem partsOfList_relocate {es : List Expr}
    (h : ∀ a ∈ es, (a.relocate f).rules E = (a.rules E).relocate f) :
    partsOfList E (relocateList f es) = (partsOfList E es).map (Part.relocate f) := by
  rw [partsOfList_eq, partsOfList_eq, relocateList_eq, List.map_map, List.map_map]
  refine List.map_congr_left fun a ha => ?_
  simp only [Function.comp_apply, h a ha, Part.relocate]

theorem partsOfBinders_relocate {binders : List (Site × Expr)}
    (h : ∀ b ∈ binders, (b.2.relocate f).rules E = (b.2.rules E).relocate f) :
    partsOfBinders E (relocateBinders f binders) =
      (partsOfBinders E binders).map fun b => (b.1.relocate f, b.2.relocate f) := by
  rw [partsOfBinders_eq, partsOfBinders_eq, relocateBinders_eq, List.map_map, List.map_map]
  refine List.map_congr_left fun b hb => ?_
  simp only [Function.comp_apply, h b hb, Part.relocate]

/-- Relocating an expression relocates its rejections and changes nothing else, if its
unfinished parts stay where they are and no two places come together. -/
theorem rules_relocate (hf : Function.Injective f) {e : Expr} (h : ∀ s ∈ e.todos, f s = s) :
    (e.relocate f).rules E = (e.rules E).relocate f := by
  induction e using Expr.induction with
  | const s c => simpa only [relocate, rules] using Rules.const_relocate hf c
  | todo s => simpa only [relocate, rules] using Rules.todo_relocate hf (h s (by simp [todos]))
  | var s x => simpa only [relocate, rules] using Rules.var_relocate hf x
  | number s n => simpa only [relocate, rules] using Rules.number_relocate hf n
  | quote s a => simpa only [relocate, rules] using Rules.quote_relocate hf a
  | unary s o a iha =>
    rw [relocate, rules, rules, iha h]
    exact Rules.unary_relocate hf o ⟨a, a.rules E⟩
  | binary s o a b iha ihb =>
    simp only [todos, List.mem_append] at h
    rw [relocate, rules, rules, iha fun t ht => h t (.inl ht), ihb fun t ht => h t (.inr ht)]
    exact Rules.binary_relocate hf o ⟨a, a.rules E⟩ ⟨b, b.rules E⟩
  | ternary s o a b c iha ihb ihc =>
    simp only [todos, List.mem_append] at h
    rw [relocate, rules, rules, iha fun t ht => h t (.inl (.inl ht)), ihb fun t ht =>
      h t (.inl (.inr ht)), ihc fun t ht => h t (.inr ht)]
    exact Rules.ternary_relocate hf o ⟨a, a.rules E⟩ ⟨b, b.rules E⟩ ⟨c, c.rules E⟩
  | quaternary s o a b c d iha ihb ihc ihd =>
    simp only [todos, List.mem_append] at h
    rw [relocate, rules, rules, iha fun t ht => h t (.inl (.inl (.inl ht))),
      ihb fun t ht => h t (.inl (.inl (.inr ht))), ihc fun t ht => h t (.inl (.inr ht)),
      ihd fun t ht => h t (.inr ht)]
    exact Rules.quaternary_relocate hf o ⟨a, a.rules E⟩ ⟨b, b.rules E⟩ ⟨c, c.rules E⟩
      ⟨d, d.rules E⟩
  | indVec s l t m b p ihl iht ihm ihb ihp =>
    simp only [todos, List.mem_append] at h
    rw [relocate, rules, rules, ihl fun u hu => h u (.inl (.inl (.inl (.inl hu)))),
      iht fun u hu => h u (.inl (.inl (.inl (.inr hu)))), ihm fun u hu =>
        h u (.inl (.inl (.inr hu))),
      ihb fun u hu => h u (.inl (.inr hu)), ihp fun u hu => h u (.inr hu)]
    exact Rules.indVec_relocate hf ⟨l, l.rules E⟩ ⟨t, t.rules E⟩ ⟨m, m.rules E⟩ ⟨b, b.rules E⟩
      ⟨p, p.rules E⟩
  | arrow s domain rest ihd ihr =>
    simp only [todos, todosOfList_eq, List.mem_append, List.mem_flatMap] at h
    have hrest := partsOfList_relocate fun a ha => ihr a ha fun t ht => h t (.inr ⟨a, ha, ht⟩)
    rw [relocate, rules, rules, ihd fun t ht => h t (.inl ht), hrest]
    exact Rules.former_relocate fun c =>
      Rules.nondependent_relocate .pi c ⟨domain, domain.rules E⟩ _
  | quant s q binders body ihb ih =>
    simp only [todos, todosOfBinders_eq, List.mem_append, List.mem_flatMap] at h
    have hbinders := partsOfBinders_relocate fun b hb => ihb b hb fun t ht =>
      h t (.inl ⟨b, hb, ht⟩)
    rw [relocate, rules, rules, ih fun t ht => h t (.inr ht), hbinders]
    exact Rules.former_relocate fun c => Rules.telescope_relocate q c ⟨body, body.rules E⟩ _
  | lambda s parameters body ih =>
    rw [relocate, rules, rules, ih h]
    exact Rules.checked_relocate hf (Rules.checkLambda_relocate ⟨body, body.rules E⟩ parameters)
  | apply s function arguments ihf iha =>
    simp only [todos, todosOfList_eq, List.mem_append, List.mem_flatMap] at h
    have harguments := partsOfList_relocate fun a ha => iha a ha fun t ht =>
      h t (.inr ⟨a, ha, ht⟩)
    rw [relocate, rules, rules, ihf fun t ht => h t (.inl ht), harguments]
    exact Rules.inferred_relocate hf fun S => relocateError_bind rfl fun r =>
      Rules.applyTo_relocate (partsOfList E arguments) S r.1 r.2

end Surface.Expr

/-! ## Forms and programs -/

/-- Moves the place of the rejection that ended a program, if one did. -/
def Transcript.relocate (f : Span → Span) (t : Transcript) : Transcript :=
  ⟨t.processed, t.context, t.interrupt.map (Interrupt.map (TypeError.relocate f))⟩

namespace Context

variable {E : Engine} {f : Span → Span} (hf : Function.Injective f)

include hf

theorem isType_relocate {e : Surface.Expr} (h : ∀ s ∈ e.todos, f s = s) (Γ : Context) :
    Γ.isType E (e.relocate f) = relocateError f (Γ.isType E e) := by
  unfold isType
  rw [Surface.Expr.rules_relocate hf h]
  rfl

theorem check_relocate {e : Surface.Expr} (h : ∀ s ∈ e.todos, f s = s) (Γ : Context)
    (ty : Value) :
    Γ.check E (e.relocate f) ty = relocateError f (Γ.check E e ty) := by
  unfold check
  rw [Surface.Expr.rules_relocate hf h]
  rfl

theorem normalize_relocate {e : Surface.Expr} (h : ∀ s ∈ e.todos, f s = s) (Γ : Context) :
    Γ.normalize E (e.relocate f) = relocateError f (Γ.normalize E e) := by
  unfold normalize synthesize
  rw [Surface.Expr.rules_relocate hf h]
  exact relocateError_bind rfl fun _ => relocateError_lift _

/-- A form is processed as before wherever it is moved to. -/
theorem process_relocate {form : Surface.Form} (h : ∀ s ∈ form.todos, f s = s) (Γ : Context) :
    Γ.process E (form.relocate f) = relocateError f (Γ.process E form) := by
  cases form with
  | claim site e =>
    rw [Surface.Form.relocate, process, process, site.name_relocate]
    by_cases hsome : (Γ.binding? site.name).isSome
    · rw [if_pos hsome, if_pos hsome]
      rfl
    · rw [if_neg hsome, if_neg hsome]
      refine relocateError_bind (isType_relocate hf h Γ) fun t => ?_
      exact relocateError_bind (relocateError_lift _) fun _ => rfl
  | define site e =>
    rw [Surface.Form.relocate, process, process, site.name_relocate]
    cases Γ.binding? site.name with
    | none => rfl
    | some binding =>
      cases binding with
      | claim ty =>
        refine relocateError_bind (check_relocate hf h Γ ty) fun t => ?_
        exact relocateError_bind (relocateError_lift _) fun _ => rfl
      | free | defined => rfl
  | checkSame ty left right =>
    simp only [Surface.Form.todos, List.mem_append] at h
    rw [Surface.Form.relocate, process, process, right.span_relocate]
    refine relocateError_bind (isType_relocate hf (fun s hs => h s (.inl (.inl hs))) Γ)
      fun _ => ?_
    refine relocateError_bind (relocateError_lift _) fun value => ?_
    refine relocateError_bind (check_relocate hf (fun s hs => h s (.inl (.inr hs))) Γ value)
      fun _ => ?_
    refine relocateError_bind (check_relocate hf (fun s hs => h s (.inr hs)) Γ value)
      fun _ => ?_
    refine relocateError_bind (relocateError_lift _) fun _ =>
      relocateError_bind (relocateError_lift _) fun _ => ?_
    exact relocateError_bind (relocateError_locate _ _) fun _ => rfl
  | expression e =>
    rw [Surface.Form.relocate, process, process]
    exact relocateError_bind (normalize_relocate hf h Γ) fun _ => rfl

/-- So is a program: it is accepted as far as before, with the same results. -/
theorem processAll_relocate {forms : List Surface.Form}
    (h : ∀ form ∈ forms, ∀ s ∈ form.todos, f s = s) (Γ : Context) :
    Γ.processAll E (forms.map (Surface.Form.relocate f)) =
      (Γ.processAll E forms).relocate f := by
  induction forms generalizing Γ with
  | nil => rfl
  | cons form forms ih =>
    rw [List.map_cons, processAll, processAll, process_relocate hf (h form List.mem_cons_self)]
    cases Γ.process E form with
    | error i => rfl
    | ok r =>
      obtain ⟨p, Γ'⟩ := r
      have hrest := ih (fun form hform => h form (List.mem_cons_of_mem _ hform)) Γ'
      show Transcript.mk _ _ _ = Transcript.relocate f ⟨_, _, _⟩
      rw [hrest]
      rfl

end Context

end PieChecker
