import PieChecker.Proofs.Parsing.Placement
import PieChecker.Proofs.Parsing.Quotation
import PieChecker.Proofs.Postcondition
import PieChecker.Proofs.Provenance
import PieChecker.Proofs.SessionStates

set_option autoImplicit false

/-!
# The unfinished parts that a program reports

A program may leave parts unfinished, and each form that is accepted reports such parts. No part
that is written is lost on the way: whatever an expression is elaborated to, its unfinished
parts are among those of the term, in the order of the text. The term may have more of them,
since the checker adds types to it that it has read back, and evaluation may have put the
unfinished parts of earlier claims and definitions into these.

An expression at the top level reports the unfinished parts of its normal form, and so it may
lose some.
-/

namespace PieChecker

/-! ## Terms -/

namespace Core

/-- The places are among those of the unfinished parts of the term, in the same order. -/
def Keeps (l : List Span) (t : Core) : Prop := l.Sublist (t.holes.map Prod.fst)

theorem keeps_nil (t : Core) : t.Keeps [] := List.nil_sublist _

namespace Keeps

variable {a b c d e : Core} {la lb lc ld le : List Span} (ha : a.Keeps la) (hb : b.Keeps lb)
  (hc : c.Keeps lc) (hd : d.Keeps ld) (he : e.Keeps le)

include ha hb

theorem quant (q : Quantifier) (x : String) : (Core.quant q x a b).Keeps (la ++ lb) := by
  rw [Keeps, holes, List.map_append]
  exact ha.append hb

theorem binary (o : Binary) : (Core.binary o a b).Keeps (la ++ lb) := by
  rw [Keeps, holes, List.map_append]
  exact ha.append hb

include hc

theorem ternary (o : Ternary) : (Core.ternary o a b c).Keeps (la ++ lb ++ lc) := by
  rw [Keeps, holes, List.map_append, List.map_append]
  exact (ha.append hb).append hc

include hd

theorem quaternary (o : Quaternary) :
    (Core.quaternary o a b c d).Keeps (la ++ lb ++ lc ++ ld) := by
  rw [Keeps, holes, List.map_append, List.map_append, List.map_append]
  exact ((ha.append hb).append hc).append hd

include he

theorem indVec : (Core.indVec a b c d e).Keeps (la ++ lb ++ lc ++ ld ++ le) := by
  rw [Keeps, holes, List.map_append, List.map_append, List.map_append, List.map_append]
  exact (((ha.append hb).append hc).append hd).append he

omit hd he in
/-- The type that the checker adds to an eliminator stands behind the target. -/
theorem eliminator (o : Quaternary) (r : Core) :
    (Core.quaternary o a r b c).Keeps (la ++ lb ++ lc) := by
  have h := ha.quaternary r.keeps_nil hb hc o
  rwa [List.append_nil] at h

end Keeps

end Core

/-! ## Rules -/

/-- Whatever the expression is elaborated to, it keeps the unfinished parts at the given
places. -/
structure Rules.Keeps (l : List Span) (r : Rules) : Prop where
  synthesize : ∀ S, Yields (fun p => p.1.Keeps l) (r.synthesize S)
  check : ∀ S ty, Yields (Core.Keeps l) (r.check S ty)
  isType : ∀ S, Yields (Core.Keeps l) (r.isType S)

/-- A part keeps what is written as unfinished in it. -/
def Part.Keeps (a : Part) : Prop := a.rules.Keeps a.expr.todos

namespace Rules

theorem Keeps.component {a : Part} {l : List Span} (ha : a.rules.Keeps l) (c : Component)
    (S : Scope) :
    Yields (Core.Keeps l) (a.component c S) := by
  cases c with
  | type => exact ha.isType S
  | ofUniverse => exact ha.check S .univ

theorem keeps_nil (r : Rules) : r.Keeps [] where
  synthesize _ := .of_forall fun p _ => p.1.keeps_nil
  check _ _ := .of_forall fun t _ => t.keeps_nil
  isType _ := .of_forall fun t _ => t.keeps_nil

section Patterns

variable {E : Engine} {span : Span} {l : List Span}

theorem inferred_keeps {find : Scope → Checked (Core × Value)}
    (h : ∀ S, Yields (fun p => p.1.Keeps l) (find S)) :
    (inferred E span find).Keeps l where
  synthesize := h
  check S ty := checkFound_yields (h S) ty
  isType S := asType_yields (checkFound_yields (h S) .univ)

theorem former_keeps {build : Component → Scope → Checked Core}
    (h : ∀ c S, Yields (Core.Keeps l) (build c S)) :
    (former E span build).Keeps l := by
  have hfind : ∀ S, Yields (fun p => p.1.Keeps l) ((former E span build).synthesize S) :=
    fun S => (h .ofUniverse S).bind fun _ ht => .of_ok ht
  exact ⟨hfind, fun S => checkFound_yields (hfind S), h .type⟩

theorem checked_keeps {check : Scope → Value → Checked Core}
    (h : ∀ S ty, Yields (Core.Keeps l) (check S ty)) :
    (checked span check).Keeps l := by
  have hcheck : ∀ S ty, Yields (Core.Keeps l) ((checked span check).check S ty) :=
    fun S _ => .skip fun T => h S T
  exact ⟨fun _ => True.intro, hcheck, fun S => asType_yields (hcheck S .univ)⟩

/-! ### Binders -/

theorem nondependent_yields (q : Quantifier) (c : Component) {domain : Part} (hd : domain.Keeps)
    {rest : List Part} (hrest : ∀ a ∈ rest, a.Keeps) (S : Scope) :
    Yields (Core.Keeps (domain.expr.todos ++ rest.flatMap fun a => a.expr.todos))
      (nondependent E q c domain rest S) := by
  induction rest generalizing domain S with
  | nil =>
    rw [List.flatMap_nil, List.append_nil]
    exact hd.component c S
  | cons codomain rest ih =>
    obtain ⟨hcodomain, hrest⟩ := List.forall_mem_cons.1 hrest
    refine .skip fun x => (hd.component c S).bind fun base hbase => .skip fun v =>
      .skip fun inner => ?_
    rw [List.flatMap_cons]
    exact (ih hcodomain hrest inner).bind fun family hfamily => .of_ok (hbase.quant hfamily q x)

theorem telescope_yields (q : Quantifier) (c : Component) {body : Part} (hbody : body.Keeps)
    {binders : List (Surface.Site × Part)} (hbinders : ∀ b ∈ binders, b.2.Keeps) (S : Scope) :
    Yields (Core.Keeps ((binders.flatMap fun b => b.2.expr.todos) ++ body.expr.todos))
      (telescope E q c body binders S) := by
  induction binders generalizing S with
  | nil => exact hbody.component c S
  | cons binder binders ih =>
    obtain ⟨site, ty⟩ := binder
    obtain ⟨hty, hbinders⟩ := List.forall_mem_cons.1 hbinders
    refine (hty.component c S).bind fun base hbase => .skip fun v => .skip fun r => ?_
    rw [List.flatMap_cons, List.append_assoc]
    exact (ih hbinders r.2).bind fun family hfamily => .of_ok (hbase.quant hfamily q r.1)

theorem checkLambda_yields {body : Part} (hbody : body.rules.Keeps l)
    (sites : List Surface.Site) (S : Scope) (ty : Value) :
    Yields (Core.Keeps l) (checkLambda E span body sites S ty) := by
  induction sites generalizing S ty with
  | nil => exact hbody.check S ty
  | cons site sites ih =>
    unfold checkLambda
    split
    · refine .skip fun r => .skip fun _ => .skip fun codomain => ?_
      exact (ih r.2 codomain).bind fun t ht => .of_ok ht
    · exact S.rejectFormer_yields E span .pi _

theorem applyTo_yields {arguments : List Part} (harguments : ∀ a ∈ arguments, a.Keeps)
    (S : Scope) {function : Core} (hf : function.Keeps l) (ty : Value) :
    Yields (fun p => p.1.Keeps (l ++ arguments.flatMap fun a => a.expr.todos))
      (applyTo E span arguments S function ty) := by
  induction arguments generalizing function l ty with
  | nil =>
    rw [List.flatMap_nil, List.append_nil]
    exact hf
  | cons argument arguments ih =>
    obtain ⟨hargument, harguments⟩ := List.forall_mem_cons.1 harguments
    refine .skip fun T => ?_
    split
    · rename_i base family
      refine (hargument.check S base).bind fun a ha => .skip fun v => .skip fun result => ?_
      rw [List.flatMap_cons, ← List.append_assoc]
      exact ih harguments (hf.binary ha .apply) result
    · exact S.rejectFormer_yields E span .pi _

/-! ### Rules by the number of parts -/

variable {la lb lc ld le : List Span}

theorem todo_keeps : (todo E span).Keeps [span] :=
  checked_keeps fun _ _ => .skip fun _ => .of_ok (List.Sublist.refl [span])

theorem unary_keeps (o : Unary) {a : Part} (ha : a.rules.Keeps l) :
    (unary E span o a).Keeps l := by
  cases o with
  | add1 => exact inferred_keeps fun S => (ha.check S .nat).bind fun _ ht => .of_ok ht
  | car =>
    exact inferred_keeps fun S => (findFormer_yields (ha.synthesize S) .sigma _).bind
      fun _ ht => .of_ok ht
  | cdr =>
    refine inferred_keeps fun S => (findFormer_yields (ha.synthesize S) .sigma _).bind
      fun _ ht => ?_
    exact .skip fun _ => .skip fun _ => .skip fun _ => .of_ok ht
  | list =>
    rw [unary]
    exact former_keeps fun c S => (ha.component c S).bind fun _ ht => .of_ok ht
  | same =>
    refine checked_keeps fun S ty => ?_
    split
    · refine (ha.check S _).bind fun t ht => ?_
      exact .skip fun _ => .skip fun _ => .skip fun _ => .of_ok ht
    · exact S.rejectFormer_yields E span .equal _
  | symm =>
    exact inferred_keeps fun S => (findFormer_yields (ha.synthesize S) .equal _).bind
      fun _ ht => .of_ok ht
  | head =>
    exact inferred_keeps fun S => (findNonempty_yields (ha.synthesize S)).bind fun _ ht =>
      .of_ok ht
  | tail =>
    exact inferred_keeps fun S => (findNonempty_yields (ha.synthesize S)).bind fun _ ht =>
      .of_ok ht
  | left | right =>
    refine checked_keeps fun S ty => ?_
    split
    · exact (ha.check S _).bind fun _ ht => .of_ok ht
    · exact S.rejectFormer_yields E span .either _

theorem binary_keeps (o : Surface.Binary) {a b : Part} (ha : a.Keeps) (hb : b.Keeps) :
    (binary E span o a b).Keeps (a.expr.todos ++ b.expr.todos) := by
  cases o with
  | the =>
    refine inferred_keeps fun S => (ha.isType S).bind fun ty hty => .skip fun v => ?_
    exact (hb.check S v).bind fun t ht => .of_ok (hty.binary ht .the)
  | pair =>
    rw [binary]
    refine former_keeps fun c S => ?_
    have hpair := nondependent_yields (E := E) .sigma c ha (List.forall_mem_singleton.2 hb) S
    rwa [List.flatMap_singleton] at hpair
  | cons =>
    refine checked_keeps fun S ty => ?_
    split
    · refine (ha.check S _).bind fun t ht => .skip fun _ => .skip fun T => ?_
      exact (hb.check S T).bind fun u hu => .of_ok (ht.binary hu .cons)
    · exact S.rejectFormer_yields E span .sigma _
  | listCons =>
    refine inferred_keeps fun S => (ha.synthesize S).bind fun t ht => ?_
    exact (hb.check S (.list t.2)).bind fun u hu => .of_ok (ht.binary hu .listCons)
  | indAbsurd =>
    refine inferred_keeps fun S => (ha.check S _).bind fun t ht =>
      (hb.isType S).bind fun p hp => ?_
    exact .skip fun _ => .of_ok (ht.binary hp .indAbsurd)
  | trans =>
    refine inferred_keeps fun S => (findFormer_yields (ha.synthesize S) .equal _).bind
      fun t ht => ?_
    refine (findFormer_yields (hb.synthesize S) .equal _).bind fun u hu => ?_
    exact .skip fun _ => .skip fun _ => .of_ok (ht.binary hu .trans)
  | cong =>
    refine inferred_keeps fun S => (findFormer_yields (ha.synthesize S) .equal _).bind
      fun t ht => ?_
    refine (findFormer_yields (hb.synthesize S) .pi _).bind fun f hf => ?_
    refine .skip fun _ => .skip fun _ => .skip fun _ => .skip fun _ => .skip fun _ =>
      .skip fun r => .of_ok ?_
    have hcong := ht.ternary r.keeps_nil hf .cong
    rwa [List.append_nil] at hcong
  | vec =>
    rw [binary]
    refine former_keeps fun c S => (ha.component c S).bind fun t ht => ?_
    exact (hb.check S .nat).bind fun u hu => .of_ok (ht.binary hu .vec)
  | vecCons =>
    refine checked_keeps fun S ty => ?_
    split
    · refine .skip fun length => ?_
      split
      · exact (ha.check S _).bind fun t ht => (hb.check S _).bind fun u hu =>
          .of_ok (ht.binary hu .vecCons)
      · exact S.rejectLength_yields E span .successor _
    · exact S.rejectFormer_yields E span .vec _
  | either =>
    rw [binary]
    refine former_keeps fun c S => (ha.component c S).bind fun t ht => ?_
    exact (hb.component c S).bind fun u hu => .of_ok (ht.binary hu .either)

theorem natRecursor_keeps (o : Core.Quaternary) (stepType : Value → Value) {a b c : Part}
    (ha : a.rules.Keeps la) (hb : b.rules.Keeps lb) (hc : c.rules.Keeps lc) :
    (natRecursor E span o stepType a b c).Keeps (la ++ lb ++ lc) := by
  refine inferred_keeps fun S => (ha.check S .nat).bind fun t ht => ?_
  refine (hb.synthesize S).bind fun b hb => (hc.check S (stepType b.2)).bind fun p hp => ?_
  exact .skip fun r => .of_ok (ht.eliminator hb hp o r)

theorem ternary_keeps (o : Surface.Ternary) {a b c : Part} (ha : a.rules.Keeps la)
    (hb : b.rules.Keeps lb) (hc : c.rules.Keeps lc) :
    (ternary E span o a b c).Keeps (la ++ lb ++ lc) := by
  cases o with
  | whichNat | iterNat | recNat => exact natRecursor_keeps _ _ ha hb hc
  | recList =>
    refine inferred_keeps fun S => (findFormer_yields (ha.synthesize S) .list _).bind
      fun t ht => ?_
    refine (hb.synthesize S).bind fun b hb => (hc.check S _).bind fun p hp => ?_
    exact .skip fun r => .of_ok (ht.eliminator hb hp .recList r)
  | equal =>
    rw [ternary]
    refine former_keeps fun component S => (ha.component component S).bind fun t ht =>
      .skip fun v => ?_
    exact (hb.check S v).bind fun l hl => (hc.check S v).bind fun r hr =>
      .of_ok (ht.ternary hl hr .equal)
  | replace =>
    refine inferred_keeps fun S => (findFormer_yields (ha.synthesize S) .equal _).bind
      fun t ht => ?_
    refine (checkMotive_yields (hb.check S _)).bind fun p hp => .skip fun T =>
      (hc.check S T).bind fun b hb => ?_
    exact .skip fun _ => .of_ok (ht.ternary hp hb .replace)
  | indEq =>
    refine inferred_keeps fun S => (findFormer_yields (ha.synthesize S) .equal _).bind
      fun t ht => ?_
    refine (checkMotive_yields (hb.check S _)).bind fun p hp => .skip fun _ => .skip fun T => ?_
    refine (hc.check S T).bind fun b hb => .skip fun _ => .skip fun _ =>
      .skip fun _ => .of_ok ?_
    exact ht.ternary hp hb .indEq

theorem quaternary_keeps (o : Surface.Quaternary) {a b c d : Part} (ha : a.rules.Keeps la)
    (hb : b.rules.Keeps lb) (hc : c.rules.Keeps lc) (hd : d.rules.Keeps ld) :
    (quaternary E span o a b c d).Keeps (la ++ lb ++ lc ++ ld) := by
  cases o with
  | indNat =>
    refine inferred_keeps fun S => (ha.check S .nat).bind fun t ht => ?_
    refine (checkMotive_yields (hb.check S _)).bind fun p hp => .skip fun T =>
      (hc.check S T).bind fun b hb => ?_
    refine (hd.check S _).bind fun q hq => .skip fun _ => .skip fun _ => .of_ok ?_
    exact ht.quaternary hp hb hq .indNat
  | indList =>
    refine inferred_keeps fun S => (findFormer_yields (ha.synthesize S) .list _).bind
      fun t ht => ?_
    refine (checkMotive_yields (hb.check S _)).bind fun p hp => .skip fun T =>
      (hc.check S T).bind fun b hb => ?_
    refine (hd.check S _).bind fun q hq => .skip fun _ => .skip fun _ => .of_ok ?_
    exact ht.quaternary hp hb hq .indList
  | indEither =>
    refine inferred_keeps fun S => (findFormer_yields (ha.synthesize S) .either _).bind
      fun t ht => ?_
    refine (checkMotive_yields (hb.check S _)).bind fun p hp =>
      (hc.check S _).bind fun l hl => ?_
    refine (hd.check S _).bind fun r hr => .skip fun _ => .skip fun _ => .of_ok ?_
    exact ht.quaternary hp hl hr .indEither

theorem indVec_keeps {l t p b q : Part} (hl : l.rules.Keeps la) (ht : t.rules.Keeps lb)
    (hp : p.rules.Keeps lc) (hb : b.rules.Keeps ld) (hq : q.rules.Keeps le) :
    (indVec E span l t p b q).Keeps (la ++ lb ++ lc ++ ld ++ le) := by
  refine inferred_keeps fun S => (hl.check S .nat).bind fun l hl => .skip fun _ => ?_
  refine (findFormer_yields (ht.synthesize S) .vec _).bind fun t ht => .skip fun _ => ?_
  refine (checkMotive_yields (hp.check S _)).bind fun p hp => .skip fun _ => .skip fun T => ?_
  refine (hb.check S T).bind fun b hb => (hq.check S _).bind fun q hq => ?_
  exact .skip fun _ => .skip fun _ => .skip fun _ => .of_ok (hl.indVec ht hp hb hq)

end Patterns

end Rules

namespace Surface.Expr

section Parts

variable {E : Engine}

theorem partsOfList_keeps {es : List Expr} (h : ∀ a ∈ es, (a.rules E).Keeps a.todos) :
    ∀ a ∈ partsOfList E es, a.Keeps := by
  rw [partsOfList_eq]
  exact List.forall_mem_map.2 h

theorem partsOfBinders_keeps {binders : List (Site × Expr)}
    (h : ∀ b ∈ binders, (b.2.rules E).Keeps b.2.todos) :
    ∀ b ∈ partsOfBinders E binders, b.2.Keeps := by
  rw [partsOfBinders_eq]
  exact List.forall_mem_map.2 h

theorem todosOfList_eq_parts (es : List Expr) :
    todosOfList es = (partsOfList E es).flatMap fun a => a.expr.todos := by
  rw [todosOfList_eq, partsOfList_eq, List.flatMap_map]

theorem todosOfBinders_eq_parts (binders : List (Site × Expr)) :
    todosOfBinders binders = (partsOfBinders E binders).flatMap fun b => b.2.expr.todos := by
  rw [todosOfBinders_eq, partsOfBinders_eq, List.flatMap_map]

end Parts

/-- Whatever an expression is elaborated to, nothing that it leaves unfinished is lost. -/
theorem rules_keeps (E : Engine) (e : Expr) : (e.rules E).Keeps e.todos := by
  induction e using Expr.induction with
  | const | var | number | quote =>
    rw [todos]
    exact Rules.keeps_nil _
  | todo s =>
    rw [todos, rules]
    exact Rules.todo_keeps
  | unary s o a iha =>
    rw [todos, rules]
    exact Rules.unary_keeps o iha
  | binary s o a b iha ihb =>
    have ha : Part.Keeps ⟨a, a.rules E⟩ := iha
    have hb : Part.Keeps ⟨b, b.rules E⟩ := ihb
    rw [todos, rules]
    exact Rules.binary_keeps o ha hb
  | ternary s o a b c iha ihb ihc =>
    rw [todos, rules]
    exact Rules.ternary_keeps o iha ihb ihc
  | quaternary s o a b c d iha ihb ihc ihd =>
    rw [todos, rules]
    exact Rules.quaternary_keeps o iha ihb ihc ihd
  | indVec s l t m b p ihl iht ihm ihb ihp =>
    rw [todos, rules]
    exact Rules.indVec_keeps ihl iht ihm ihb ihp
  | arrow s domain rest ihd ihr =>
    have hdomain : Part.Keeps ⟨domain, domain.rules E⟩ := ihd
    rw [todos, rules, todosOfList_eq_parts (E := E)]
    exact Rules.former_keeps fun c S =>
      Rules.nondependent_yields .pi c hdomain (partsOfList_keeps ihr) S
  | quant s q binders body ihb ih =>
    have hbody : Part.Keeps ⟨body, body.rules E⟩ := ih
    rw [todos, rules, todosOfBinders_eq_parts (E := E)]
    exact Rules.former_keeps fun c S =>
      Rules.telescope_yields q c hbody (partsOfBinders_keeps ihb) S
  | lambda s parameters body ih =>
    rw [todos, rules]
    exact Rules.checked_keeps fun S ty => Rules.checkLambda_yields ih parameters S ty
  | apply s function arguments ihf iha =>
    rw [todos, rules, todosOfList_eq_parts (E := E)]
    refine Rules.inferred_keeps fun S => (ihf.synthesize S).bind fun f hf => ?_
    exact Rules.applyTo_yields (partsOfList_keeps iha) S hf f.2

end Surface.Expr

/-! ## Forms -/

/-- Does the form claim or define a name? -/
def Surface.Form.isDeclaration : Surface.Form → Bool
  | claim _ _ | define _ _ => true
  | checkSame _ _ _ | expression _ => false

theorem map_span_holesOf (terms : List Core) :
    (holesOf terms).map Hole.span = terms.flatMap fun t => t.holes.map Prod.fst := by
  simp only [holesOf, List.map_flatMap, List.map_map, Function.comp_def]

namespace Context

variable {E : Engine} {Γ Γ' : Context} {form : Surface.Form} {p : Processed}

/-- A form other than an expression reports whatever it leaves unfinished. -/
theorem todos_sublist_holes (hform : ∀ e, form ≠ .expression e)
    (h : Γ.process E form = .ok (p, Γ')) :
    form.todos.Sublist (p.holes.map Hole.span) := by
  have hyields : PieChecker.Yields (fun r => form.todos.Sublist (r.1.holes.map Hole.span))
      (Γ.process E form) := by
    cases form with
    | claim site ty =>
      rw [Context.process]
      split
      · exact True.intro
      · refine ((ty.rules_keeps E).isType _).bind fun t ht => .skip fun v => .of_ok ?_
        rw [map_span_holesOf, List.flatMap_singleton]
        exact ht
    | define site e =>
      rw [Context.process]
      split
      · refine ((e.rules_keeps E).check _ _).bind fun t ht => .skip fun v => .of_ok ?_
        rw [map_span_holesOf, List.flatMap_singleton]
        exact ht
      · exact True.intro
      · exact True.intro
    | checkSame ty left right =>
      rw [Context.process]
      refine ((ty.rules_keeps E).isType _).bind fun t ht => .skip fun T => ?_
      refine ((left.rules_keeps E).check _ _).bind fun l hl =>
        ((right.rules_keeps E).check _ _).bind fun r hr => ?_
      refine .skip fun _ => .skip fun _ => .skip fun _ => .of_ok ?_
      simp only [map_span_holesOf, List.flatMap_cons, List.flatMap_nil, List.append_nil,
        ← List.append_assoc]
      exact (ht.append hl).append hr
    | expression e => exact (hform e rfl).elim
  exact hyields.of_eq_ok h

/-- Only claims and definitions change the context. -/
theorem process_eq_self (hform : form.isDeclaration = false)
    (h : Γ.process E form = .ok (p, Γ')) : Γ' = Γ := by
  obtain ⟨_, _, _, _, rfl, _⟩ | ⟨_, _, _, _, _, rfl, _⟩ | ⟨_, hΓ⟩ := process_cases h
  · cases hform
  · cases hform
  · exact hΓ

/-! ## Programs -/

namespace Accepted

variable {forms : List Surface.Form} {ps : List Processed}

theorem processed_eq (h : Accepted E Γ forms ps Γ') :
    (Γ.processAll E forms).processed = ps := by
  induction h with
  | nil => rfl
  | cons h _ ih => rw [processAll, h, ← ih]

theorem append_singleton {Δ : Context} (h : Accepted E Γ forms ps Δ)
    (hform : Δ.process E form = .ok (p, Γ')) :
    Accepted E Γ (forms ++ [form]) (ps ++ [p]) Γ' := by
  induction h with
  | nil => exact .cons hform .nil
  | cons h _ ih => exact .cons h (ih hform)

/-- The claims and definitions among the forms lead to the same context. -/
theorem declarations (h : Accepted E Γ forms ps Γ') :
    ∃ qs, Accepted E Γ (forms.filter Surface.Form.isDeclaration) qs Γ' := by
  induction h with
  | nil => exact ⟨[], .nil⟩
  | @cons Γ Δ Γ' form forms p ps h _ ih =>
    obtain ⟨qs, hqs⟩ := ih
    cases hform : form.isDeclaration with
    | true =>
      rw [List.filter_cons_of_pos hform]
      exact ⟨p :: qs, .cons h hqs⟩
    | false =>
      rw [process_eq_self hform h] at hqs
      rw [List.filter_cons_of_neg (by simp [hform])]
      exact ⟨qs, hqs⟩

/-- Every output is that of a form in the context which the forms before it lead to. -/
theorem exists_of_getElem? (h : Accepted E Γ forms ps Γ') {i : Nat} (hp : ps[i]? = some p) :
    ∃ form qs Δ Δ', forms[i]? = some form ∧ Accepted E Γ (forms.take i) qs Δ ∧
    Δ.process E form = .ok (p, Δ') := by
  induction h generalizing i with
  | nil => cases hp
  | @cons Γ Δ Γ' form forms q ps h _ ih =>
    cases i with
    | zero =>
      cases hp
      exact ⟨form, [], Γ, Δ, rfl, .nil, h⟩
    | succ i =>
      obtain ⟨form', qs, Δ₁, Δ₂, hform', hqs, hprocess⟩ := ih hp
      exact ⟨form', q :: qs, Δ₁, Δ₂, hform', .cons h hqs, hprocess⟩

end Accepted

/-- What a form reports as unfinished is so in the form, or in a claim or definition before
it. -/
theorem mem_todos_of_accepted {forms : List Surface.Form} {ps : List Processed}
    (h : Accepted E .empty forms ps Γ) (hform : Γ.process E form = .ok (p, Γ')) {hole : Hole}
    (hhole : hole ∈ p.holes) :
    hole.span ∈ form.todos ∨ ∃ earlier ∈ forms, earlier.isDeclaration = true ∧
    hole.span ∈ earlier.todos := by
  obtain ⟨qs, hqs⟩ := h.declarations
  have hlast := (hqs.append_singleton hform).processed_eq
  obtain ⟨form', hform', hspan⟩ :=
    mem_todos_of_mem_holes (hlast ▸ List.mem_append_right qs List.mem_cons_self) hhole
  rcases List.mem_append.1 hform' with hearlier | hself
  · obtain ⟨hmem, hdeclaration⟩ := List.mem_filter.1 hearlier
    exact .inr ⟨form', hmem, hdeclaration, hspan⟩
  · rw [List.mem_singleton.1 hself] at hspan
    exact .inl hspan

/-- No unfinished part that is written is lost and none is invented. Take a text that is run in
a new session. What the forms of the program leave unfinished are the `TODO`s of the text that
are not quoted. Now take a form that is accepted. If it is a claim, a definition or a
comparison, then it reports all that it leaves unfinished, in the order and with the places of
the text. Whatever the form, each part that it reports has the place of a `TODO` that is written
in the form itself or in an earlier claim or definition, all of which are accepted. -/
theorem reported_holes_exact {source : String} {transcript : Transcript}
    (h : Context.empty.runProgram E source = .ok transcript) :
    ∃ (xs : List Lexeme) (forms : List Surface.Form), lex source = .ok xs ∧
      Surface.parse source = .ok forms ∧
      forms.flatMap Surface.Form.todos = Quotation.plain.todos xs ∧
      ∀ (i : Nat) (p : Processed), transcript.processed[i]? = some p →
        ∃ form, forms[i]? = some form ∧
        ((∀ e, form ≠ .expression e) → form.todos.Sublist (p.holes.map Hole.span)) ∧
        ∀ hole ∈ p.holes, hole.span ∈ form.todos ∨
          ∃ j earlier, j < i ∧ forms[j]? = some earlier ∧ earlier.isDeclaration = true ∧
          hole.span ∈ earlier.todos := by
  obtain ⟨forms, hparse, ⟨⟩⟩ := bind_eq_ok_iff.1 h
  obtain ⟨xs, hlex, hprogram⟩ := Surface.parse_eq_ok_iff.1 hparse
  refine ⟨xs, forms, hlex, hparse, hprogram.todos_eq, fun i p hp => ?_⟩
  obtain ⟨accepted, rest, rfl, haccepted, -⟩ := processAll_cases (E := E) .empty forms
  obtain ⟨form, qs, Δ, Δ', hform, hqs, hprocess⟩ := haccepted.exists_of_getElem? hp
  have hleft : ∀ {k : Nat} {form : Surface.Form}, accepted[k]? = some form →
      (accepted ++ rest)[k]? = some form := by
    intro k form hk
    rw [List.getElem?_append_left (List.getElem?_eq_some_iff.1 hk).1, hk]
  refine ⟨form, hleft hform, fun hne => todos_sublist_holes hne hprocess, fun hole hhole => ?_⟩
  refine (mem_todos_of_accepted hqs hprocess hhole).imp_right ?_
  rintro ⟨earlier, hmem, hdeclaration, hspan⟩
  obtain ⟨j, hj⟩ := List.getElem?_of_mem hmem
  rw [List.getElem?_take] at hj
  split at hj
  · rename_i hji
    exact ⟨j, earlier, hji, hleft hj, hdeclaration, hspan⟩
  · cases hj

/-- A text that leaves `n` unfinished and asks for its value. -/
def unfinishedNumber : String := "(claim n Nat) (define n TODO) n"

theorem parse_unfinishedNumber : Surface.parse unfinishedNumber =
    .ok [.claim ⟨⟨7, 8⟩, "n"⟩ (.const ⟨9, 12⟩ .nat), .define ⟨⟨22, 23⟩, "n"⟩ (.todo ⟨24, 28⟩),
      .expression (.var ⟨30, 31⟩ "n")] := by
  have hlex : lex unfinishedNumber =
      .ok [⟨.opening, 0, "("⟩, ⟨.keyword (.opener .claim), 1, "claim"⟩, ⟨.blank, 6, " "⟩,
        ⟨.name, 7, "n"⟩, ⟨.blank, 8, " "⟩, ⟨.keyword (.const .nat), 9, "Nat"⟩,
        ⟨.closing, 12, ")"⟩, ⟨.blank, 13, " "⟩,
      ⟨.opening, 14, "("⟩, ⟨.keyword (.opener .define), 15, "define"⟩, ⟨.blank, 21, " "⟩,
      ⟨.name, 22, "n"⟩, ⟨.blank, 23, " "⟩, ⟨.keyword .todo, 24, "TODO"⟩, ⟨.closing, 28, ")"⟩,
      ⟨.blank, 29, " "⟩, ⟨.name, 30, "n"⟩] := by
    decide +kernel
  rw [Surface.parse, hlex]
  rfl

/-- The value of `n` reports what the definition of `n` leaves unfinished. -/
theorem reported_holes_exact_unfinishedNumber : ∃ transcript,
    Context.empty.runProgram ⟨.onDemand, 9⟩ unfinishedNumber = .ok transcript ∧
    transcript.processed = [⟨.claimed "n", []⟩, ⟨.defined "n", [⟨⟨24, 28⟩, .nat⟩]⟩,
      ⟨.normalized (.the .nat (.todo ⟨24, 28⟩ .nat)), [⟨⟨24, 28⟩, .nat⟩]⟩] ∧
    ∃ forms, Surface.parse unfinishedNumber = .ok forms ∧ ∃ j earlier, j < 2 ∧
      forms[j]? = some earlier ∧
      earlier.isDeclaration = true ∧ ⟨24, 28⟩ ∈ earlier.todos := by
  have hrun : Context.empty.runProgram ⟨.onDemand, 9⟩ unfinishedNumber = .ok _ :=
    bind_eq_ok_iff.2 ⟨_, parse_unfinishedNumber, rfl⟩
  refine ⟨_, hrun, rfl, ?_⟩
  obtain ⟨xs, forms, hlex, hparse, -, hforms⟩ := reported_holes_exact hrun
  obtain ⟨form, hform, -, hholes⟩ := hforms 2 _ rfl
  refine ⟨forms, hparse, (hholes _ (.head _)).resolve_left fun hself => ?_⟩
  cases parse_unfinishedNumber.symm.trans hparse
  cases hform
  cases hself

end Context

end PieChecker
