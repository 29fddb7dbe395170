import PieChecker.Typing.Scope

set_option autoImplicit false

/-!
# Typing rules

Elaboration is bidirectional: an expression is read as one whose type is to be found, as one
that must have a given type, or as one that must be a type. The meaning of an expression to the
checker is a record of these three readings, `Rules`, and it is built from the records of its
parts. Every expression follows one of four patterns.

* Its type can be found; it is checked by comparing the type found with the expected one.
* It is a type former. It has type `U` if its parts do, and it is a type if its parts are.
* Its type cannot be found; it can only be checked.
* It is `U`, which is a type and has none.
-/

namespace PieChecker

/-- The three readings of an expression. -/
structure Rules where
  /-- Elaborates the expression and finds its type. -/
  synthesize : Scope → Checked (Core × Value)
  /-- Elaborates the expression at a given type. -/
  check : Scope → Value → Checked Core
  /-- Elaborates the expression as a type. -/
  isType : Scope → Checked Core

/-- A part of an expression with its three readings. -/
structure Part where
  expr : Surface.Expr
  rules : Rules

/-- How the parts of a type former are read. -/
inductive Component where
  /-- Each part must be a type. -/
  | type
  /-- Each part must have type `U`. -/
  | ofUniverse
  deriving DecidableEq, Repr

namespace Part

/-- The span of a part. -/
def span (a : Part) : Span := a.expr.span

/-- Reads a part of a type former. -/
def component (a : Part) (c : Component) (S : Scope) : Checked Core :=
  match c with
  | .type => a.rules.isType S
  | .ofUniverse => a.rules.check S .univ

end Part

namespace Rules

variable (E : Engine)

/-- Reads an expression as a type by checking it against `U`. If the expression has another
type, it is not a type. -/
def asType (span : Span) (check : Scope → Value → Checked Core) (S : Scope) : Checked Core :=
  match check S .univ with
  | .error (.rejected ⟨at', .typeMismatch expected found⟩) =>
    reject at' (if at' = span then .notAType found else .typeMismatch expected found)
  | result => result

/-- Checks an expression by comparing the type found with the expected one. -/
def checkFound (span : Span) (synthesize : Scope → Checked (Core × Value)) (S : Scope)
    (ty : Value) :
    Checked Core := do
  let ty ← ty.now
  let (term, found) ← synthesize S
  locate span (S.context.sameType E ty found)
  return term

/-- The readings of an expression whose type can be found. -/
def inferred (span : Span) (synthesize : Scope → Checked (Core × Value)) : Rules where
  synthesize := synthesize
  check := checkFound E span synthesize
  isType := asType span (checkFound E span synthesize)

/-- The readings of a type former. -/
def former (span : Span) (build : Component → Scope → Checked Core) : Rules :=
  let synthesize : Scope → Checked (Core × Value) :=
    fun S => return (← build .ofUniverse S, .univ)
  { synthesize := synthesize
    check := checkFound E span synthesize
    isType := build .type }

/-- The readings of an expression that can only be checked. -/
def checked (span : Span) (check : Scope → Value → Checked Core) : Rules :=
  let checkNow : Scope → Value → Checked Core := fun S ty => do check S (← ty.now)
  { synthesize := fun _ => reject span .cannotSynthesize
    check := checkNow
    isType := asType span checkNow }

/-- The readings of `U`. -/
def univ (span : Span) : Rules :=
  let synthesize : Scope → Checked (Core × Value) := fun _ => reject span .universeHasNoType
  { synthesize := synthesize
    check := checkFound E span synthesize
    isType := fun _ => return .univ }

/-! ## Parts with a type of a given form -/

/-- Finds the type of a part, which must have the given former. -/
def findFormer {α : Type} (a : Part) (former : Former) (parts? : Value → Option α) (S : Scope) :
    Checked (Core × α) := do
  let (term, ty) ← a.rules.synthesize S
  let ty ← ty.now
  match parts? ty with
  | some parts => return (term, parts)
  | none => S.rejectFormer E a.span former ty

/-- Finds the entries' type of a list. -/
def findList (a : Part) : Scope → Checked (Core × Value) :=
  findFormer E a .list fun
    | .list entry => some entry
    | _ => none

/-- Finds the type and the two sides of an equality. -/
def findEqual (a : Part) : Scope → Checked (Core × Value × Value × Value) :=
  findFormer E a .equal fun
    | .equal space lhs rhs => some (space, lhs, rhs)
    | _ => none

/-- Finds the entries' type and the length of a list of known length. -/
def findVec (a : Part) : Scope → Checked (Core × Value × Value) :=
  findFormer E a .vec fun
    | .vec entry length => some (entry, length)
    | _ => none

/-- Finds the base and the family of a dependent type. -/
def findQuant (a : Part) (former : Former) (q : Quantifier) :
    Scope → Checked (Core × Value × Closure) :=
  findFormer E a former fun
    | .quant q' _ base family => if q' = q then some (base, family) else none
    | _ => none

/-- Finds the entries' type and the length of the rest of a list that must not be empty. -/
def findNonempty (a : Part) (S : Scope) : Checked (Core × Value × Value) := do
  let (term, entry, length) ← findVec E a S
  match ← length.now with
  | .add1 previous => return (term, entry, previous)
  | length => S.rejectLength E a.span .successor length

/-- Checks a motive. One that does not have the required type is reported as an ill-typed
motive. -/
def checkMotive (a : Part) (S : Scope) (ty : Value) : Checked (Core × Value) := do
  match a.rules.check S ty with
  | .ok motive => return (motive, ← S.context.evaluate E motive)
  | .error (.rejected ⟨span, cause⟩) =>
    match cause with
    | .typeMismatch _ _ | .expectedFormer _ _ | .notAType _ =>
      reject span (.illTypedMotive (← S.context.readBackType E ty) cause)
    | _ => reject span cause
  | .error (.stopped stop) => .error (.stopped stop)

/-! ## Binders -/

/-- Elaborates a type whose binders the program does not name: `(-> A B … Z)` and
`(Pair A D)`. -/
def nondependent (q : Quantifier) (c : Component) : (domain : Part) → (rest : List Part) →
    Scope → Checked Core
  | domain, [], S => domain.component c S
  | domain, codomain :: rest, S => do
    let x ← S.freshBinder (Surface.Expr.namesOfList ((codomain :: rest).map Part.expr)) "x"
    let base ← domain.component c S
    let inner ← S.bindHidden x (← S.context.evaluate E base) domain.span
    return .quant q x base (← nondependent q c codomain rest inner)

/-- Elaborates the binders of `Π` or `Σ` one at a time, each in the scope of the ones before
it. -/
def telescope (q : Quantifier) (c : Component) (body : Part) :
    List (Surface.Site × Part) → Scope → Checked Core
  | [], S => body.component c S
  | (site, ty) :: binders, S => do
    let base ← ty.component c S
    let (x, inner) ← S.bind site (← S.context.evaluate E base)
    return .quant q x base (← telescope q c body binders inner)

/-- Checks `(λ (x y …) body)` one parameter at a time. -/
def checkLambda (span : Span) (body : Part) : List Surface.Site → Scope → Value → Checked Core
  | [], S, ty => body.rules.check S ty
  | site :: sites, S, ty => do
    match ty with
    | .pi _ base family =>
      let (x, inner) ← S.bind site base
      let codomain ← (← E.run family (.var x base)).now
      return .lam x (← checkLambda span body sites inner codomain)
    | ty => S.rejectFormer E span .pi ty

/-- Applies an elaborated function to arguments, one at a time. -/
def applyTo (span : Span) : List Part → Scope → (function : Core) → (ty : Value) →
    Checked (Core × Value)
  | [], _, function, ty => return (function, ty)
  | argument :: arguments, S, function, ty => do
    match ← ty.now with
    | .pi _ base family =>
      let a ← argument.rules.check S base
      let result ← E.run family (← S.context.evaluate E a)
      applyTo span arguments S (.apply function a) result
    | ty => S.rejectFormer E span .pi ty

/-! ## Rules by the number of parts -/

/-- The rules of constants. -/
def const (span : Span) : Const → Rules
  | .univ => univ E span
  | .nat => former E span fun _ _ => return .nat
  | .atom => former E span fun _ _ => return .const .atom
  | .trivial => former E span fun _ _ => return .const .trivial
  | .absurd => former E span fun _ _ => return .absurd
  | .zero => inferred E span fun _ => return (.zero, .nat)
  | .sole => inferred E span fun _ => return (.const .sole, .const .trivial)
  | .nil => checked span fun S ty =>
    match ty with
    | .list _ => return .const .nil
    | ty => S.rejectFormer E span .list ty
  | .vecnil => checked span fun S ty => do
    match ty with
    | .vec _ length =>
      match ← length.now with
      | .zero => return .const .vecnil
      | length => S.rejectLength E span .zero length
    | ty => S.rejectFormer E span .vec ty

/-- The rules of an unfinished part, which has any type that is expected of it. -/
def todo (span : Span) : Rules :=
  checked span fun S ty => return .todo span (← S.context.readBackType E ty)

/-- The rules of variables. -/
def var (span : Span) (x : String) : Rules :=
  inferred E span fun S => do
    let (y, ty) ← locateError span (S.reference x)
    return (.var y, ty)

/-- The rules of numbers. -/
def number (span : Span) (n : Nat) : Rules :=
  inferred E span fun _ => if n > maxNumeral then reject span (.numeralTooLarge n)
    else return (.numeral n, .nat)

/-- The rules of quoted names. -/
def quote (span : Span) (a : String) : Rules :=
  inferred E span fun _ => return (.quote a, .const .atom)

/-- The rules of the operators with one operand. -/
def unary (span : Span) (o : Unary) (a : Part) : Rules :=
  match o with
  | .add1 => inferred E span fun S => return (.add1 (← a.rules.check S .nat), .nat)
  | .car => inferred E span fun S => do
    let (pair, base, _) ← findQuant E a .sigma .sigma S
    return (.unary .car pair, base)
  | .cdr => inferred E span fun S => do
    let (pair, _, family) ← findQuant E a .sigma .sigma S
    let car ← (← S.context.evaluate E pair).car
    return (.unary .cdr pair, ← E.run family car)
  | .list => former E span fun c S => return .unary .list (← a.component c S)
  | .same => checked span fun S ty => do
    match ty with
    | .equal space lhs rhs =>
      let point ← a.rules.check S space
      let value ← S.context.evaluate E point
      locate span (S.context.convert E space lhs value)
      locate span (S.context.convert E space value rhs)
      return .unary .same point
    | ty => S.rejectFormer E span .equal ty
  | .symm => inferred E span fun S => do
    let (target, space, lhs, rhs) ← findEqual E a S
    return (.unary .symm target, .equal space rhs lhs)
  | .head => inferred E span fun S => do
    let (target, entry, _) ← findNonempty E a S
    return (.unary .head target, entry)
  | .tail => inferred E span fun S => do
    let (target, entry, previous) ← findNonempty E a S
    return (.unary .tail target, .vec entry previous)
  | .left => checked span fun S ty => do
    match ty with
    | .either left _ => return .unary .left (← a.rules.check S left)
    | ty => S.rejectFormer E span .either ty
  | .right => checked span fun S ty => do
    match ty with
    | .either _ right => return .unary .right (← a.rules.check S right)
    | ty => S.rejectFormer E span .either ty

/-- The rules of the operators with two operands. -/
def binary (span : Span) (o : Surface.Binary) (a b : Part) : Rules :=
  match o with
  | .the => inferred E span fun S => do
    let ty ← a.rules.isType S
    let value ← S.context.evaluate E ty
    return (.the ty (← b.rules.check S value), value)
  | .pair => former E span fun c => nondependent E .sigma c a [b]
  | .cons => checked span fun S ty => do
    match ty with
    | .sigma _ base family =>
      let car ← a.rules.check S base
      let cdr ← b.rules.check S (← E.run family (← S.context.evaluate E car))
      return .binary .cons car cdr
    | ty => S.rejectFormer E span .sigma ty
  | .listCons => inferred E span fun S => do
    let (head, entry) ← a.rules.synthesize S
    let tail ← b.rules.check S (.list entry)
    return (.binary .listCons head tail, .list entry)
  | .indAbsurd => inferred E span fun S => do
    let target ← a.rules.check S (.const .absurd)
    let motive ← b.rules.isType S
    return (.binary .indAbsurd target motive, ← S.context.evaluate E motive)
  | .trans => inferred E span fun S => do
    let (left, space, lhs, middle) ← findEqual E a S
    let (right, rightSpace, rightMiddle, rhs) ← findEqual E b S
    locate b.span (S.context.sameType E space rightSpace)
    locate span (S.context.convert E space middle rightMiddle)
    return (.binary .trans left right, .equal space lhs rhs)
  | .cong => inferred E span fun S => do
    let (target, space, lhs, rhs) ← findEqual E a S
    let (function, base, family) ← findQuant E b .pi .pi S
    locate b.span (S.context.sameType E space base)
    let result ← E.run family lhs
    let value ← S.context.evaluate E function
    let lhs ← E.apply value lhs
    let rhs ← E.apply value rhs
    return (.ternary .cong target (← S.context.readBackType E result) function,
      .equal result lhs rhs)
  | .vec =>
    former E span fun c S => return .binary .vec (← a.component c S) (← b.rules.check S .nat)
  | .vecCons => checked span fun S ty => do
    match ty with
    | .vec entry length =>
      match ← length.now with
      | .add1 previous =>
        return .binary .vecCons (← a.rules.check S entry)
          (← b.rules.check S (.vec entry previous))
      | length => S.rejectLength E span .successor length
    | ty => S.rejectFormer E span .vec ty
  | .either =>
    former E span fun c S => return .binary .either (← a.component c S) (← b.component c S)

/-- The rule of an eliminator of numbers at a fixed type: target, base, and a step whose type
depends on the base's. -/
def natRecursor (span : Span) (o : Core.Quaternary) (stepType : Value → Value)
    (target base step : Part) : Rules :=
  inferred E span fun S => do
    let target ← target.rules.check S .nat
    let (base, result) ← base.rules.synthesize S
    let step ← step.rules.check S (stepType result)
    return (.quaternary o target (← S.context.readBackType E result) base step, result)

/-- The rules of the operators with three operands. -/
def ternary (span : Span) (o : Surface.Ternary) (a b c : Part) : Rules :=
  match o with
  | .whichNat => natRecursor E span .whichNat Value.whichNatStepType a b c
  | .iterNat => natRecursor E span .iterNat Value.iterNatStepType a b c
  | .recNat => natRecursor E span .recNat Value.recNatStepType a b c
  | .recList => inferred E span fun S => do
    let (target, entry) ← findList E a S
    let (base, result) ← b.rules.synthesize S
    let step ← c.rules.check S (Value.recListStepType entry result)
    return (.quaternary .recList target (← S.context.readBackType E result) base step, result)
  | .equal => former E span fun component S => do
    let ty ← a.component component S
    let space ← S.context.evaluate E ty
    return .ternary .equal ty (← b.rules.check S space) (← c.rules.check S space)
  | .replace => inferred E span fun S => do
    let (target, space, lhs, rhs) ← findEqual E a S
    let (motive, motiveValue) ← checkMotive E b S (Value.motiveType space)
    let base ← c.rules.check S (← E.apply motiveValue lhs)
    return (.ternary .replace target motive base, ← E.apply motiveValue rhs)
  | .indEq => inferred E span fun S => do
    let (target, space, lhs, rhs) ← findEqual E a S
    let (motive, motiveValue) ← checkMotive E b S (Value.indEqMotiveType space lhs)
    let base ← c.rules.check S (← E.apply (← E.apply motiveValue lhs) (.same lhs))
    let result ← E.apply (← E.apply motiveValue rhs) (← S.context.evaluate E target)
    return (.ternary .indEq target motive base, result)

/-- The rules of the operators with four operands. -/
def quaternary (span : Span) (o : Surface.Quaternary) (a b c d : Part) : Rules :=
  match o with
  | .indNat => inferred E span fun S => do
    let target ← a.rules.check S .nat
    let (motive, motiveValue) ← checkMotive E b S (Value.motiveType .nat)
    let base ← c.rules.check S (← E.apply motiveValue .zero)
    let step ← d.rules.check S (Value.indNatStepType motiveValue)
    let result ← E.apply motiveValue (← S.context.evaluate E target)
    return (.quaternary .indNat target motive base step, result)
  | .indList => inferred E span fun S => do
    let (target, entry) ← findList E a S
    let (motive, motiveValue) ← checkMotive E b S (Value.motiveType (.list entry))
    let base ← c.rules.check S (← E.apply motiveValue (.const .nil))
    let step ← d.rules.check S (Value.indListStepType entry motiveValue)
    let result ← E.apply motiveValue (← S.context.evaluate E target)
    return (.quaternary .indList target motive base step, result)
  | .indEither => inferred E span fun S => do
    let (target, leftType, rightType) ← findFormer E a .either (fun
      | .either left right => some (left, right)
      | _ => none) S
    let (motive, motiveValue) ← checkMotive E b S
        (Value.motiveType (.either leftType rightType))
    let left ← c.rules.check S (Value.indEitherMethodType .left leftType motiveValue)
    let right ← d.rules.check S (Value.indEitherMethodType .right rightType motiveValue)
    let result ← E.apply motiveValue (← S.context.evaluate E target)
    return (.quaternary .indEither target motive left right, result)

/-- The rules of `ind-Vec`. -/
def indVec (span : Span) (length target motive base step : Part) : Rules :=
  inferred E span fun S => do
    let lengthTerm ← length.rules.check S .nat
    let lengthValue ← S.context.evaluate E lengthTerm
    let (target, entry, targetLength) ← findVec E target S
    locate length.span (S.context.convert E .nat lengthValue targetLength)
    let (motive, motiveValue) ← checkMotive E motive S (Value.indVecMotiveType entry)
    let base ← base.rules.check S (← E.apply (← E.apply motiveValue .zero) (.const .vecnil))
    let step ← step.rules.check S (Value.indVecStepType entry motiveValue)
    let result ← E.apply (← E.apply motiveValue lengthValue) (← S.context.evaluate E target)
    return (.indVec lengthTerm target motive base step, result)

end Rules

namespace Surface.Expr

variable (E : Engine)

mutual

/-- The three readings of an expression. -/
def rules : Expr → Rules
  | .const span c => Rules.const E span c
  | .todo span => Rules.todo E span
  | .var span x => Rules.var E span x
  | .number span n => Rules.number E span n
  | .quote span a => Rules.quote E span a
  | .unary span o a => Rules.unary E span o ⟨a, a.rules⟩
  | .binary span o a b => Rules.binary E span o ⟨a, a.rules⟩ ⟨b, b.rules⟩
  | .ternary span o a b c => Rules.ternary E span o ⟨a, a.rules⟩ ⟨b, b.rules⟩ ⟨c, c.rules⟩
  | .quaternary span o a b c d =>
    Rules.quaternary E span o ⟨a, a.rules⟩ ⟨b, b.rules⟩ ⟨c, c.rules⟩ ⟨d, d.rules⟩
  | .indVec span l t m b s =>
    Rules.indVec E span ⟨l, l.rules⟩ ⟨t, t.rules⟩ ⟨m, m.rules⟩ ⟨b, b.rules⟩ ⟨s, s.rules⟩
  | .arrow span domain rest =>
    Rules.former E span fun c =>
      Rules.nondependent E .pi c ⟨domain, domain.rules⟩ (partsOfList rest)
  | .quant span q binders body =>
    Rules.former E span fun c =>
      Rules.telescope E q c ⟨body, body.rules⟩ (partsOfBinders binders)
  | .lambda span parameters body =>
    Rules.checked span (Rules.checkLambda E span ⟨body, body.rules⟩ parameters)
  | .apply span function arguments =>
    Rules.inferred E span fun S => do
      let (term, ty) ← function.rules.synthesize S
      Rules.applyTo E span (partsOfList arguments) S term ty

/-- The parts in a list of expressions. -/
def partsOfList : List Expr → List Part
  | [] => []
  | e :: es => ⟨e, e.rules⟩ :: partsOfList es

/-- The parts in a list of typed binders. -/
def partsOfBinders : List (Site × Expr) → List (Site × Part)
  | [] => []
  | (site, ty) :: binders => (site, ⟨ty, ty.rules⟩) :: partsOfBinders binders

end

end Surface.Expr

namespace Context

variable (E : Engine) (Γ : Context)

/-- Elaborates an expression whose type can be found from the expression itself. -/
def synthesize (e : Surface.Expr) : Checked (Core × Value) :=
  (e.rules E).synthesize (.ofContext Γ)

/-- Elaborates an expression at an expected type. -/
def check (e : Surface.Expr) (ty : Value) : Checked Core := (e.rules E).check (.ofContext Γ) ty

/-- Elaborates an expression that must be a type. -/
def isType (e : Surface.Expr) : Checked Core := (e.rules E).isType (.ofContext Γ)

/-- Elaborates an expression and puts it and its type into normal form. -/
def normalize (e : Surface.Expr) : Checked Core := do
  let (term, ty) ← Γ.synthesize E e
  Γ.normalForm E term ty

end Context

end PieChecker
