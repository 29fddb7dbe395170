import PieChecker.Proofs.Simulation.Alpha

set_option autoImplicit false

/-!
# Nameless terms

A term without the names of its binders: a bound variable is the number of binders between it
and its own, and all proofs of `Absurd` are one. Two terms are equal up to bound names exactly
if they have the same nameless form, so equality up to bound names is an equivalence.
-/

namespace PieChecker.Core

namespace Nameless

/-- A variable in a term whose binders have no names. -/
inductive Variable where
  /-- Bound, with so many binders in between. -/
  | bound (i : Nat)
  | free (x : String)
  deriving DecidableEq, Repr

end Nameless

/-- A core term whose binders have no names. -/
inductive Nameless where
  | var (v : Nameless.Variable)
  | const (c : Const)
  | quote (a : String)
  | todo (span : Span) (ty : Nameless)
  | quant (q : Quantifier) (base family : Nameless)
  | lam (body : Nameless)
  | unary (o : Unary) (a : Nameless)
  | binary (o : Core.Binary) (a b : Nameless)
  | ternary (o : Core.Ternary) (a b c : Nameless)
  | quaternary (o : Core.Quaternary) (a b c d : Nameless)
  | indVec (length target motive base step : Nameless)
  /-- Any proof of `Absurd`. -/
  | proofOfAbsurd
  deriving DecidableEq, Repr

/-- What a name stands for below a list of binders, the innermost one first. -/
def Nameless.Variable.below (bs : List String) (x : String) : Nameless.Variable :=
  match bs.idxOf? x with
  | some i => bound i
  | none => free x

/-- A term without the names of its binders, below a list of binders, the innermost one
first. -/
def nameless (bs : List String) : Core → Nameless
  | var x => .var (.below bs x)
  | const c => .const c
  | quote a => .quote a
  | todo span ty => .todo span (ty.nameless bs)
  | quant q x base family => .quant q (base.nameless bs) (family.nameless (x :: bs))
  | lam x body => .lam (body.nameless (x :: bs))
  | unary o a => .unary o (a.nameless bs)
  | the absurd _ => .proofOfAbsurd
  | binary o a b => .binary o (a.nameless bs) (b.nameless bs)
  | ternary o a b c => .ternary o (a.nameless bs) (b.nameless bs) (c.nameless bs)
  | quaternary o a b c d =>
    .quaternary o (a.nameless bs) (b.nameless bs) (c.nameless bs) (d.nameless bs)
  | indVec l t m b s =>
    .indVec (l.nameless bs) (t.nameless bs) (m.nameless bs) (b.nameless bs) (s.nameless bs)

theorem nameless_binary (bs : List String) (o : Core.Binary) (a b : Core) :
    nameless bs (binary o a b) =
      if o = .the ∧ a = absurd then .proofOfAbsurd else .binary o (a.nameless bs)
        (b.nameless bs) := by
  split
  · rename_i h
    obtain ⟨rfl, rfl⟩ := h
    rw [nameless]
  · rename_i h
    rw [nameless]
    exact fun ho ha => h ⟨ho, ha⟩

theorem nameless_eq_const_iff (bs : List String) (t : Core) (c : Const) :
    t.nameless bs = .const c ↔ t = const c := by
  cases t with
  | binary o a b =>
    rw [nameless_binary]
    split <;> simp
  | _ => simp [nameless]

theorem sameVariable_iff (ls rs : List String) (x y : String) :
    sameVariable ls rs x y = true ↔
    Nameless.Variable.below ls x = Nameless.Variable.below rs y := by
  unfold sameVariable Nameless.Variable.below
  cases ls.idxOf? x <;> cases rs.idxOf? y <;> simp

/-- Neither a proof of `Absurd` nor another term with two operands looks like a term of another
kind. -/
theorem nameless_binary_ne (bs : List String) (o : Core.Binary) (a b : Core) {n : Nameless}
    (hproof : n ≠ .proofOfAbsurd) (hbinary : ∀ o a b, n ≠ .binary o a b) :
    nameless bs (binary o a b) ≠ n := by
  rw [nameless_binary]
  split
  · exact hproof.symm
  · exact (hbinary _ _ _).symm

/-- For two terms with two operands each, equality up to bound names and equality without names
are the same if they are for the operands. -/
theorem alphaEquivalentUnder_binary_iff {ls rs : List String} (o o' : Core.Binary)
    {a a' b b' : Core} (ha : alphaEquivalentUnder ls rs a a' = true ↔
      a.nameless ls = a'.nameless rs)
    (hb : alphaEquivalentUnder ls rs b b' = true ↔ b.nameless ls = b'.nameless rs) :
    alphaEquivalentUnder ls rs (binary o a b) (binary o' a' b') = true ↔
      (binary o a b).nameless ls = (binary o' a' b').nameless rs := by
  -- Equal first operands are both `Absurd` or neither of them is.
  have habsurd : alphaEquivalentUnder ls rs a a' = true → (a = absurd ↔ a' = absurd) := by
    intro h
    rw [← nameless_eq_const_iff ls a, ← nameless_eq_const_iff rs a', ha.1 h]
  rw [alphaEquivalentUnder_binary, nameless_binary, nameless_binary]
  by_cases h : o = .the ∧ a = absurd
  · by_cases h' : o' = .the ∧ a' = absurd
    · simp [h, h']
    · rw [if_pos h, if_neg h', if_neg (fun hall => h' ⟨hall.2.2.1, hall.2.2.2⟩)]
      grind
  · by_cases h' : o' = .the ∧ a' = absurd
    · rw [if_neg h, if_pos h', if_neg (fun hall => h ⟨hall.1, hall.2.1⟩)]
      grind
    · rw [if_neg h, if_neg h', if_neg (fun hall => h ⟨hall.1, hall.2.1⟩)]
      simp [ha, hb, and_assoc]

/-- Two terms are equal up to bound names exactly if they are equal without them. -/
theorem alphaEquivalentUnder_iff (ls rs : List String) (t u : Core) :
    alphaEquivalentUnder ls rs t u = true ↔ t.nameless ls = u.nameless rs := by
  induction t generalizing ls rs u with
  | binary o a b iha ihb =>
    cases u with
    | binary o' a' b' =>
      exact alphaEquivalentUnder_binary_iff o o' (iha ls rs a') (ihb ls rs b')
    | _ => simp [alphaEquivalentUnder, nameless, nameless_binary_ne]
  | var x =>
    cases u <;> simp [alphaEquivalentUnder, nameless, (nameless_binary_ne _ _ _ _ _ _).symm,
      sameVariable_iff]
  | _ =>
    cases u <;> simp [alphaEquivalentUnder, nameless, (nameless_binary_ne _ _ _ _ _ _).symm,
      and_assoc, *]

/-- Equality up to bound names is equality of nameless terms. -/
theorem alphaEquivalent_iff {t u : Core} :
    t.alphaEquivalent u = true ↔ t.nameless [] = u.nameless [] :=
  alphaEquivalentUnder_iff [] [] t u

theorem alphaEquivalent_refl (t : Core) : t.alphaEquivalent t = true :=
  alphaEquivalent_iff.2 rfl

theorem alphaEquivalent_symm {t u : Core} (h : t.alphaEquivalent u = true) :
    u.alphaEquivalent t = true :=
  alphaEquivalent_iff.2 (alphaEquivalent_iff.1 h).symm

theorem alphaEquivalent_trans {t u v : Core} (h : t.alphaEquivalent u = true)
    (g : u.alphaEquivalent v = true) :
    t.alphaEquivalent v = true :=
  alphaEquivalent_iff.2 ((alphaEquivalent_iff.1 h).trans (alphaEquivalent_iff.1 g))

end PieChecker.Core
