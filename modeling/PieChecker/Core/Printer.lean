import PieChecker.Core.Basic

set_option autoImplicit false

/-!
# Printing core terms

Core terms are printed in the notation of the surface language. Runs of nested binders, arrows
and applications are printed as one group, numerals as decimal numbers. A dependent type whose
family does not use its variable is printed as an arrow or a `Pair`. The type of the base of a
simple eliminator is printed as an annotation of the base, since nothing else in that notation
says what it is.
-/

namespace PieChecker.Core

namespace Binary

/-- How an operator with two operands is printed. Applications have none. -/
def spelling : Binary → String
  | the => "the"
  | apply => ""
  | cons => "cons"
  | listCons => "::"
  | indAbsurd => "ind-Absurd"
  | trans => "trans"
  | vec => "Vec"
  | vecCons => "vec::"
  | either => "Either"

end Binary

namespace Ternary

/-- How an operator with three operands is printed. -/
def spelling : Ternary → String
  | equal => "="
  | replace => "replace"
  | cong => "cong"
  | indEq => "ind-="

end Ternary

namespace Quaternary

/-- How an operator with four operands is printed. -/
def spelling : Quaternary → String
  | whichNat => "which-Nat"
  | iterNat => "iter-Nat"
  | recNat => "rec-Nat"
  | recList => "rec-List"
  | indNat => "ind-Nat"
  | indList => "ind-List"
  | indEither => "ind-Either"

end Quaternary

/-- The place where a term is printed. In all but the first, an enclosing group is open that the
term may continue. -/
inductive Place where
  | alone
  /-- After a parameter of a `λ`. -/
  | afterParameter
  /-- After a binder of a `Π` or `Σ`. -/
  | afterBinder (q : Quantifier)
  /-- After a domain of an arrow. -/
  | afterDomain
  /-- As the function of an application. -/
  | function
  deriving DecidableEq, Repr

/-- Ends the open group, if there is one, with the text of a term that does not continue it. -/
def Place.finish : Place → String → String
  | alone, text | function, text => text
  | afterParameter, text | afterBinder _, text => ") " ++ text ++ ")"
  | afterDomain, text => text ++ ")"

/-- A bracketed form with the given head and operands. -/
def bracketed (head : String) (operands : List String) : String :=
  "(" ++ " ".intercalate (head :: operands) ++ ")"

/-- The symbol that opens a dependent type. -/
def quantifierSymbol : Quantifier → String
  | .pi => "Π"
  | .sigma => "Σ"

/-- Prints a term at a place. -/
def printAt (place : Place) : Core → String
  | var x => place.finish x
  | zero => place.finish "0"
  | const c => place.finish c.spelling
  | quote a => place.finish ("'" ++ a)
  | todo _ _ => place.finish "TODO"
  | quant q x base family =>
    if family.mentions x then
      let group := "(" ++ x ++ " " ++ base.printAt .alone ++ ")" ++
        family.printAt (.afterBinder q)
      if place = .afterBinder q then " " ++ group
      else place.finish ("(" ++ quantifierSymbol q ++ " (" ++ group)
    else match q with
      | .pi =>
        let group := base.printAt .alone ++ " " ++ family.printAt .afterDomain
        if place = .afterDomain then group else place.finish ("(-> " ++ group)
      | .sigma => place.finish (bracketed "Pair" [base.printAt .alone, family.printAt .alone])
  | lam x body =>
    let group := x ++ body.printAt .afterParameter
    if place = .afterParameter then " " ++ group else place.finish ("(λ (" ++ group)
  | unary o a =>
    place.finish <| match (unary o a).asNumeral? with
      | some n => toString n
      | none => bracketed o.spelling [a.printAt .alone]
  | binary .apply f a =>
    let group := f.printAt .function ++ " " ++ a.printAt .alone
    if place = .function then group else place.finish ("(" ++ group ++ ")")
  | binary o a b => place.finish (bracketed o.spelling [a.printAt .alone, b.printAt .alone])
  | ternary .cong a _ c =>
    place.finish (bracketed (Ternary.spelling .cong) [a.printAt .alone, c.printAt .alone])
  | ternary o a b c =>
    place.finish (bracketed o.spelling [a.printAt .alone, b.printAt .alone, c.printAt .alone])
  | quaternary o a b c d =>
    place.finish <| match o with
      | .whichNat | .iterNat | .recNat | .recList =>
        bracketed o.spelling
          [a.printAt .alone, bracketed "the" [b.printAt .alone, c.printAt .alone],
            d.printAt .alone]
      | .indNat | .indList | .indEither =>
        bracketed o.spelling [a.printAt .alone, b.printAt .alone, c.printAt .alone,
          d.printAt .alone]
  | indVec l t m b s =>
    place.finish <| bracketed "ind-Vec"
      [l.printAt .alone, t.printAt .alone, m.printAt .alone, b.printAt .alone, s.printAt .alone]

/-- Prints a term in the notation of the surface language. -/
def print (term : Core) : String :=
  term.printAt .alone

end PieChecker.Core
