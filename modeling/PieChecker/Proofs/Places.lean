import Mathlib.Data.List.Basic
import PieChecker.Surface.Basic

set_option autoImplicit false

/-!
# Places of an expression

The places of an expression are the spans of its sub-expressions and of the names that it binds.
Some of them are the places of its unfinished parts. Relocating an expression moves all of its
places and changes nothing else.
-/

namespace PieChecker.Surface

namespace Expr

/-- Induction over expressions, where the operands in a list are its members. -/
@[elab_as_elim]
theorem induction {motive : Expr → Prop} (e : Expr)
    (const : ∀ s c, motive (.const s c))
    (todo : ∀ s, motive (.todo s))
    (var : ∀ s x, motive (.var s x))
    (number : ∀ s n, motive (.number s n))
    (quote : ∀ s a, motive (.quote s a))
    (unary : ∀ s o a, motive a → motive (.unary s o a))
    (binary : ∀ s o a b, motive a → motive b → motive (.binary s o a b))
    (ternary : ∀ s o a b c, motive a → motive b → motive c → motive (.ternary s o a b c))
    (quaternary : ∀ s o a b c d, motive a → motive b → motive c → motive d →
      motive (.quaternary s o a b c d))
    (indVec : ∀ s l t m b p, motive l → motive t → motive m → motive b → motive p →
      motive (.indVec s l t m b p))
    (arrow : ∀ s domain rest, motive domain → (∀ a ∈ rest, motive a) →
      motive (.arrow s domain rest))
    (quant : ∀ s q binders body, (∀ b ∈ binders, motive b.2) → motive body →
      motive (.quant s q binders body))
    (lambda : ∀ s parameters body, motive body → motive (.lambda s parameters body))
    (apply : ∀ s function arguments, motive function → (∀ a ∈ arguments, motive a) →
      motive (.apply s function arguments)) : motive e :=
  @Expr.rec motive (fun es => ∀ a ∈ es, motive a) (fun binders => ∀ b ∈ binders, motive b.2)
    (fun b => motive b.2) const todo var number quote unary binary ternary quaternary indVec
      arrow quant lambda apply
    (by simp) (by simp +contextual) (by simp) (by simp +contextual) (fun _ _ h => h) e

end Expr

/-! ## Places -/

namespace Expr

mutual

/-- The places of an expression, in the order of the text. -/
def places : Expr → List Span
  | const s _ | todo s | var s _ | number s _ | quote s _ => [s]
  | unary s _ a => s :: a.places
  | binary s _ a b => s :: (a.places ++ b.places)
  | ternary s _ a b c => s :: (a.places ++ b.places ++ c.places)
  | quaternary s _ a b c d => s :: (a.places ++ b.places ++ c.places ++ d.places)
  | indVec s l t m b p => s :: (l.places ++ t.places ++ m.places ++ b.places ++ p.places)
  | arrow s domain rest => s :: (domain.places ++ placesOfList rest)
  | quant s _ binders body => s :: (placesOfBinders binders ++ body.places)
  | lambda s parameters body => s :: (parameters.map Site.span ++ body.places)
  | apply s function arguments => s :: (function.places ++ placesOfList arguments)

/-- The places of a list of expressions. -/
def placesOfList : List Expr → List Span
  | [] => []
  | e :: es => e.places ++ placesOfList es

/-- The places of a list of typed binders. -/
def placesOfBinders : List (Site × Expr) → List Span
  | [] => []
  | (site, ty) :: binders => site.span :: (ty.places ++ placesOfBinders binders)

end

mutual

/-- The places of the unfinished parts of an expression, in the order of the text. -/
def todos : Expr → List Span
  | const _ _ | var _ _ | number _ _ | quote _ _ => []
  | todo s => [s]
  | unary _ _ a => a.todos
  | binary _ _ a b => a.todos ++ b.todos
  | ternary _ _ a b c => a.todos ++ b.todos ++ c.todos
  | quaternary _ _ a b c d => a.todos ++ b.todos ++ c.todos ++ d.todos
  | indVec _ l t m b p => l.todos ++ t.todos ++ m.todos ++ b.todos ++ p.todos
  | arrow _ domain rest => domain.todos ++ todosOfList rest
  | quant _ _ binders body => todosOfBinders binders ++ body.todos
  | lambda _ _ body => body.todos
  | apply _ function arguments => function.todos ++ todosOfList arguments

/-- The places of the unfinished parts of a list of expressions. -/
def todosOfList : List Expr → List Span
  | [] => []
  | e :: es => e.todos ++ todosOfList es

/-- The places of the unfinished parts of a list of typed binders. -/
def todosOfBinders : List (Site × Expr) → List Span
  | [] => []
  | (_, ty) :: binders => ty.todos ++ todosOfBinders binders

end

theorem namesOfList_eq (es : List Expr) : namesOfList es = es.flatMap names := by
  induction es with
  | nil => rfl
  | cons e es ih => rw [namesOfList, ih, List.flatMap_cons]

theorem namesOfBinders_eq (binders : List (Site × Expr)) :
    namesOfBinders binders = binders.flatMap fun b => b.1.name :: b.2.names := by
  induction binders with
  | nil => rfl
  | cons b binders ih => rw [namesOfBinders, ih, List.flatMap_cons, List.cons_append]

theorem placesOfList_eq (es : List Expr) : placesOfList es = es.flatMap places := by
  induction es with
  | nil => rfl
  | cons e es ih => rw [placesOfList, ih, List.flatMap_cons]

theorem placesOfBinders_eq (binders : List (Site × Expr)) :
    placesOfBinders binders = binders.flatMap fun b => b.1.span :: b.2.places := by
  induction binders with
  | nil => rfl
  | cons b binders ih => rw [placesOfBinders, ih, List.flatMap_cons, List.cons_append]

theorem todosOfList_eq (es : List Expr) : todosOfList es = es.flatMap todos := by
  induction es with
  | nil => rfl
  | cons e es ih => rw [todosOfList, ih, List.flatMap_cons]

theorem todosOfBinders_eq (binders : List (Site × Expr)) :
    todosOfBinders binders = binders.flatMap fun b => b.2.todos := by
  induction binders with
  | nil => rfl
  | cons b binders ih => rw [todosOfBinders, ih, List.flatMap_cons]

/-- An unfinished part is at a place of its expression. -/
theorem todos_subset_places (e : Expr) : e.todos ⊆ e.places := by
  induction e using Expr.induction with
  | const | todo | var | number | quote => simp [todos, places]
  | unary s o a iha => exact List.subset_cons_of_subset s iha
  | binary s o a b iha ihb => grind [todos, places]
  | ternary s o a b c iha ihb ihc => grind [todos, places]
  | quaternary s o a b c d iha ihb ihc ihd => grind [todos, places]
  | indVec s l t m b p ihl iht ihm ihb ihp => grind [todos, places]
  | arrow s domain rest ihd ihr => grind [todos, places, todosOfList_eq, placesOfList_eq]
  | quant s q binders body ihb ih =>
    grind [todos, places, todosOfBinders_eq, placesOfBinders_eq]
  | lambda s parameters body ih => grind [todos, places]
  | apply s function arguments ihf iha => grind [todos, places, todosOfList_eq, placesOfList_eq]

end Expr

namespace Form

/-- The places of a form: those of its expressions, and the name that it claims or defines. -/
def places : Form → List Span
  | claim site e | define site e => site.span :: e.places
  | checkSame ty left right => ty.places ++ left.places ++ right.places
  | expression e => e.places

/-- The places of the unfinished parts of a form. -/
def todos : Form → List Span
  | claim _ e | define _ e | expression e => e.todos
  | checkSame ty left right => ty.todos ++ left.todos ++ right.todos

end Form

/-! ## Relocation -/

/-- Moves a name in binding position. -/
def Site.relocate (f : Span → Span) (site : Site) : Site := ⟨f site.span, site.name⟩

theorem Site.name_relocate (f : Span → Span) (site : Site) :
    (site.relocate f).name = site.name := rfl

namespace Expr

variable (f : Span → Span)

mutual

/-- Moves every place of an expression. -/
def relocate : Expr → Expr
  | const s c => const (f s) c
  | todo s => todo (f s)
  | var s x => var (f s) x
  | number s n => number (f s) n
  | quote s a => quote (f s) a
  | unary s o a => unary (f s) o a.relocate
  | binary s o a b => binary (f s) o a.relocate b.relocate
  | ternary s o a b c => ternary (f s) o a.relocate b.relocate c.relocate
  | quaternary s o a b c d => quaternary (f s) o a.relocate b.relocate c.relocate d.relocate
  | indVec s l t m b p => indVec (f s) l.relocate t.relocate m.relocate b.relocate p.relocate
  | arrow s domain rest => arrow (f s) domain.relocate (relocateList rest)
  | quant s q binders body => quant (f s) q (relocateBinders binders) body.relocate
  | lambda s parameters body => lambda (f s) (parameters.map (Site.relocate f)) body.relocate
  | apply s function arguments => apply (f s) function.relocate (relocateList arguments)

/-- Moves every place of a list of expressions. -/
def relocateList : List Expr → List Expr
  | [] => []
  | e :: es => e.relocate :: relocateList es

/-- Moves every place of a list of typed binders. -/
def relocateBinders : List (Site × Expr) → List (Site × Expr)
  | [] => []
  | (site, ty) :: binders => (site.relocate f, ty.relocate) :: relocateBinders binders

end

theorem relocateList_eq (es : List Expr) : relocateList f es = es.map (relocate f) := by
  induction es with
  | nil => rfl
  | cons e es ih => rw [relocateList, ih, List.map_cons]

theorem relocateBinders_eq (binders : List (Site × Expr)) :
    relocateBinders f binders = binders.map fun b => (b.1.relocate f, b.2.relocate f) := by
  induction binders with
  | nil => rfl
  | cons b binders ih => rw [relocateBinders, ih, List.map_cons]

theorem span_relocate (e : Expr) : (e.relocate f).span = f e.span := by
  cases e <;> rfl

/-- The places of a relocated expression are the places that those of the expression are moved
to. -/
theorem places_relocate (e : Expr) : (e.relocate f).places = e.places.map f := by
  induction e using Expr.induction with
  | const | todo | var | number | quote => rfl
  | unary s o a iha => simp [relocate, places, iha]
  | binary s o a b iha ihb => simp [relocate, places, iha, ihb]
  | ternary s o a b c iha ihb ihc => simp [relocate, places, iha, ihb, ihc]
  | quaternary s o a b c d iha ihb ihc ihd => simp [relocate, places, iha, ihb, ihc, ihd]
  | indVec s l t m b p ihl iht ihm ihb ihp => simp [relocate, places, ihl, iht, ihm, ihb, ihp]
  | arrow s domain rest ihd ihr =>
    simp [relocate, places, ihd, relocateList_eq, placesOfList_eq, List.flatMap_map,
      List.map_flatMap, List.flatMap_congr ihr]
  | quant s q binders body ihb ih =>
    simp only [relocate, places, ih, relocateBinders_eq, placesOfBinders_eq, List.flatMap_map,
      List.map_flatMap, List.map_cons, List.map_append, Site.relocate]
    rw [List.flatMap_congr fun b hb => by rw [ihb b hb]]
  | lambda s parameters body ih => simp [relocate, places, ih, Site.relocate]
  | apply s function arguments ihf iha =>
    simp [relocate, places, ihf, relocateList_eq, placesOfList_eq, List.flatMap_map,
      List.map_flatMap, List.flatMap_congr iha]

theorem names_relocate (e : Expr) : (e.relocate f).names = e.names := by
  induction e using Expr.induction with
  | const | todo | var | number | quote => rfl
  | unary s o a iha => simp [relocate, names, iha]
  | binary s o a b iha ihb => simp [relocate, names, iha, ihb]
  | ternary s o a b c iha ihb ihc => simp [relocate, names, iha, ihb, ihc]
  | quaternary s o a b c d iha ihb ihc ihd => simp [relocate, names, iha, ihb, ihc, ihd]
  | indVec s l t m b p ihl iht ihm ihb ihp => simp [relocate, names, ihl, iht, ihm, ihb, ihp]
  | arrow s domain rest ihd ihr =>
    simp [relocate, names, ihd, relocateList_eq, namesOfList_eq, List.flatMap_map,
      List.flatMap_congr ihr]
  | quant s q binders body ihb ih =>
    simp only [relocate, names, ih, relocateBinders_eq, namesOfBinders_eq, List.flatMap_map,
      Site.relocate]
    rw [List.flatMap_congr fun b hb => by rw [ihb b hb]]
  | lambda s parameters body ih => simp [relocate, names, ih, Site.relocate]
  | apply s function arguments ihf iha =>
    simp [relocate, names, ihf, relocateList_eq, namesOfList_eq, List.flatMap_map,
      List.flatMap_congr iha]

variable {f}

theorem relocateList_eq_self {es : List Expr} (h : ∀ a ∈ es, a.relocate f = a) :
    relocateList f es = es := by
  rw [relocateList_eq, List.map_congr_left h, List.map_id']

theorem relocateBinders_eq_self {binders : List (Site × Expr)}
    (h : ∀ b ∈ binders, f b.1.span = b.1.span ∧ b.2.relocate f = b.2) :
    relocateBinders f binders = binders := by
  have hself : ∀ b ∈ binders, (b.1.relocate f, b.2.relocate f) = b := by
    intro b hb
    obtain ⟨hspan, hty⟩ := h b hb
    rw [Site.relocate, hspan, hty]
  rw [relocateBinders_eq, List.map_congr_left hself, List.map_id']

/-- An expression stays as it is if none of its places moves. -/
theorem relocate_eq_self {e : Expr} (h : ∀ s ∈ e.places, f s = s) : e.relocate f = e := by
  induction e using Expr.induction with
  | const s | todo s | var s | number s | quote s => simp [relocate, h s (by simp [places])]
  | unary s o a iha => grind [relocate, places]
  | binary s o a b iha ihb => grind [relocate, places]
  | ternary s o a b c iha ihb ihc => grind [relocate, places]
  | quaternary s o a b c d iha ihb ihc ihd => grind [relocate, places]
  | indVec s l t m b p ihl iht ihm ihb ihp => grind [relocate, places]
  | arrow s domain rest ihd ihr =>
    simp only [places, placesOfList_eq, List.mem_cons, List.mem_append, List.mem_flatMap] at h
    rw [relocate, h s (.inl rfl), ihd fun t ht => h t (.inr (.inl ht)),
      relocateList_eq_self fun a ha => ihr a ha fun t ht => h t (.inr (.inr ⟨a, ha, ht⟩))]
  | quant s q binders body ihb ih =>
    simp only [places, placesOfBinders_eq, List.mem_cons, List.mem_append,
      List.mem_flatMap] at h
    rw [relocate, h s (.inl rfl), ih fun t ht => h t (.inr (.inr ht)),
      relocateBinders_eq_self fun b hb => ⟨h _ (.inr (.inl ⟨b, hb, .inl rfl⟩)),
        ihb b hb fun t ht => h t (.inr (.inl ⟨b, hb, .inr ht⟩))⟩]
  | lambda s parameters body ih =>
    simp only [places, List.mem_cons, List.mem_append, List.mem_map] at h
    have hsites : ∀ site ∈ parameters, site.relocate f = site := fun site hsite => by
      rw [Site.relocate, h _ (.inr (.inl ⟨site, hsite, rfl⟩))]
    rw [relocate, h s (.inl rfl), ih fun t ht => h t (.inr (.inr ht)),
      List.map_congr_left hsites, List.map_id']
  | apply s function arguments ihf iha =>
    simp only [places, placesOfList_eq, List.mem_cons, List.mem_append, List.mem_flatMap] at h
    rw [relocate, h s (.inl rfl), ihf fun t ht => h t (.inr (.inl ht)),
      relocateList_eq_self fun a ha => iha a ha fun t ht => h t (.inr (.inr ⟨a, ha, ht⟩))]

end Expr

namespace Form

/-- Moves every place of a form. -/
def relocate (f : Span → Span) : Form → Form
  | claim site e => claim (site.relocate f) (e.relocate f)
  | define site e => define (site.relocate f) (e.relocate f)
  | checkSame ty left right => checkSame (ty.relocate f) (left.relocate f) (right.relocate f)
  | expression e => expression (e.relocate f)

variable {f : Span → Span}

theorem places_relocate (form : Form) : (form.relocate f).places = form.places.map f := by
  cases form <;> simp [relocate, places, Expr.places_relocate, Site.relocate]

theorem relocate_eq_self {form : Form} (h : ∀ s ∈ form.places, f s = s) :
    form.relocate f = form := by
  cases form with
  | claim site e | define site e =>
    rw [relocate, Expr.relocate_eq_self fun s hs => h s (List.mem_cons_of_mem _ hs),
      Site.relocate, h site.span List.mem_cons_self]
  | checkSame ty left right =>
    simp only [places, List.mem_append] at h
    rw [relocate, Expr.relocate_eq_self fun s hs => h s (.inl (.inl hs)),
      Expr.relocate_eq_self fun s hs => h s (.inl (.inr hs)), Expr.relocate_eq_self fun s hs =>
        h s (.inr hs)]
  | expression e => rw [relocate, Expr.relocate_eq_self h]

theorem todos_subset_places (form : Form) : form.todos ⊆ form.places := by
  cases form with
  | claim site e | define site e => exact List.subset_cons_of_subset _ e.todos_subset_places
  | checkSame ty left right =>
    have hty := ty.todos_subset_places
    have hleft := left.todos_subset_places
    have hright := right.todos_subset_places
    grind [todos, places]
  | expression e => exact e.todos_subset_places

end Form

end PieChecker.Surface
