import PieChecker.Core.Basic

set_option autoImplicit false

/-!
# Equality up to bound names

Two core terms are equivalent if they differ only in the names of their binders. A bound
variable is identified by the number of binders between it and its own. All proofs of `Absurd`
count as one.
-/

namespace PieChecker.Core

/-- Do two variables stand for the same thing below two lists of binders, the innermost one
first? Either both are bound at the same distance, or both are free and have the same name. -/
def sameVariable (ls rs : List String) (x y : String) : Bool :=
  match ls.idxOf? x, rs.idxOf? y with
  | some i, some j => i = j
  | none, none => x = y
  | _, _ => false

/-- Are two terms equal up to bound names, below two lists of binders, the innermost one
first? -/
def alphaEquivalentUnder (ls rs : List String) : Core → Core → Bool
  | var x, var y => sameVariable ls rs x y
  | const c, const c' => c = c'
  | quote a, quote a' => a = a'
  | todo s ty, todo s' ty' => s = s' && alphaEquivalentUnder ls rs ty ty'
  | quant q x base family, quant q' x' base' family' =>
    q = q' && alphaEquivalentUnder ls rs base base' && alphaEquivalentUnder (x :: ls) (x' :: rs)
      family family'
  | lam x body, lam x' body' => alphaEquivalentUnder (x :: ls) (x' :: rs) body body'
  | unary o a, unary o' a' => o = o' && alphaEquivalentUnder ls rs a a'
  | the absurd _, the absurd _ => true
  | binary o a b, binary o' a' b' =>
    o = o' && alphaEquivalentUnder ls rs a a' && alphaEquivalentUnder ls rs b b'
  | ternary o a b c, ternary o' a' b' c' =>
    o = o' && alphaEquivalentUnder ls rs a a' && alphaEquivalentUnder ls rs b b' &&
      alphaEquivalentUnder ls rs c c'
  | quaternary o a b c d, quaternary o' a' b' c' d' =>
    o = o' && alphaEquivalentUnder ls rs a a' && alphaEquivalentUnder ls rs b b' &&
      alphaEquivalentUnder ls rs c c' && alphaEquivalentUnder ls rs d d'
  | indVec l t m b s, indVec l' t' m' b' s' =>
    alphaEquivalentUnder ls rs l l' && alphaEquivalentUnder ls rs t t' && alphaEquivalentUnder
      ls rs m m' && alphaEquivalentUnder ls rs b b' && alphaEquivalentUnder ls rs s s'
  | _, _ => false

/-- Are two terms equal up to bound names? -/
def alphaEquivalent (left right : Core) : Bool :=
  alphaEquivalentUnder [] [] left right

end PieChecker.Core
