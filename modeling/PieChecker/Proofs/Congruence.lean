import PieChecker.Proofs.Bidirectional

set_option autoImplicit false

/-!
# Equality up to bound names is a congruence

Terms that are equal up to bound names stay so inside any term. Below a binder this is because a
free variable that the binder captures is captured in both terms: the nameless form of a term
below more binders is determined by its nameless form, and is found by closing that over the
names of the new binders.

Comparing values of a type compares what they read back to, so it inherits the laws of an
equivalence, except that a value that does not read back is not the same as itself.
-/

namespace PieChecker

namespace Core

/-! ## Nameless terms below more binders -/

namespace Nameless

/-- What a variable stands for if its term is put below the given binders, from inside the given
number of others. -/
def Variable.close (bs : List String) (depth : Nat) : Variable → Variable
  | .bound i => .bound i
  | .free x =>
    match bs.idxOf? x with
    | some i => .bound (depth + i)
    | none => .free x

/-- Puts a nameless term below the given binders, from inside the given number of others. -/
def close (bs : List String) (depth : Nat) : Nameless → Nameless
  | var v => var (v.close bs depth)
  | const c => const c
  | quote a => quote a
  | todo span ty => todo span (ty.close bs depth)
  | quant q base family => quant q (base.close bs depth) (family.close bs (depth + 1))
  | lam body => lam (body.close bs (depth + 1))
  | unary o a => unary o (a.close bs depth)
  | binary o a b => binary o (a.close bs depth) (b.close bs depth)
  | ternary o a b c => ternary o (a.close bs depth) (b.close bs depth) (c.close bs depth)
  | quaternary o a b c d =>
    quaternary o (a.close bs depth) (b.close bs depth) (c.close bs depth) (d.close bs depth)
  | indVec l t m b s =>
    indVec (l.close bs depth) (t.close bs depth) (m.close bs depth) (b.close bs depth)
      (s.close bs depth)
  | proofOfAbsurd => proofOfAbsurd

theorem Variable.below_append (ls bs : List String) (x : String) :
    Variable.below (ls ++ bs) x = (Variable.below ls x).close bs ls.length := by
  unfold below
  rw [List.idxOf?, List.findIdx?_append]
  change _ = close bs ls.length
    (match ls.findIdx? (· == x) with | some i => bound i | none => free x)
  cases ls.findIdx? (· == x) with
  | some i => rfl
  | none =>
    change _ = match bs.findIdx? (· == x) with
      | some i => bound (ls.length + i)
      | none => free x
    cases bs.findIdx? (· == x) with
    | some i => simp [Nat.add_comm]
    | none => rfl

end Nameless

/-- The nameless form of a term below more binders is that of the term, closed over them. -/
theorem nameless_append (ls bs : List String) (t : Core) :
    t.nameless (ls ++ bs) = (t.nameless ls).close bs ls.length := by
  induction t generalizing ls with
  | var x => rw [nameless, nameless, Nameless.close, Nameless.Variable.below_append]
  | const | quote => rfl
  | quant q x base family ihb ihf =>
    have hf := ihf (x :: ls)
    rw [List.cons_append, List.length_cons] at hf
    simp only [nameless, Nameless.close, ihb, hf]
  | lam x body ih =>
    have h := ih (x :: ls)
    rw [List.cons_append, List.length_cons] at h
    simp only [nameless, Nameless.close, h]
  | binary o a b iha ihb =>
    rw [nameless_binary, nameless_binary]
    split
    · rfl
    · rw [Nameless.close, iha, ihb]
  | todo span ty ih => simp only [nameless, Nameless.close, ih]
  | unary o a iha => simp only [nameless, Nameless.close, iha]
  | ternary o a b c iha ihb ihc => simp only [nameless, Nameless.close, iha, ihb, ihc]
  | quaternary o a b c d iha ihb ihc ihd =>
    simp only [nameless, Nameless.close, iha, ihb, ihc, ihd]
  | indVec l t m b s ihl iht ihm ihb ihs =>
    simp only [nameless, Nameless.close, ihl, iht, ihm, ihb, ihs]

/-- Terms with the same nameless form have the same one below any binders. -/
theorem nameless_eq_of_nameless_nil {t u : Core} (h : t.nameless [] = u.nameless [])
    (bs : List String) :
    t.nameless bs = u.nameless bs := by
  have ht : t.nameless bs = (t.nameless []).close bs 0 := nameless_append [] bs t
  have hu : u.nameless bs = (u.nameless []).close bs 0 := nameless_append [] bs u
  rw [ht, hu, h]

/-! ## The congruence -/

/-- Related terms stay related inside every kind of term. -/
structure IsCongruence (R : Core → Core → Prop) : Prop where
  todo : ∀ {ty ty'}, R ty ty' → ∀ span, R (.todo span ty) (.todo span ty')
  quant : ∀ {base base' family family'}, R base base' → R family family' →
    ∀ q x, R (.quant q x base family) (.quant q x base' family')
  lam : ∀ {body body'}, R body body' → ∀ x, R (.lam x body) (.lam x body')
  unary : ∀ {a a'}, R a a' → ∀ o, R (.unary o a) (.unary o a')
  binary : ∀ {a a' b b'}, R a a' → R b b' → ∀ o, R (.binary o a b) (.binary o a' b')
  ternary : ∀ {a a' b b' c c'}, R a a' → R b b' → R c c' →
    ∀ o, R (.ternary o a b c) (.ternary o a' b' c')
  quaternary : ∀ {a a' b b' c c' d d'}, R a a' → R b b' → R c c' → R d d' →
    ∀ o, R (.quaternary o a b c d) (.quaternary o a' b' c' d')
  indVec : ∀ {l l' t t' m m' b b' s s'}, R l l' → R t t' → R m m' → R b b' → R s s' →
    R (.indVec l t m b s) (.indVec l' t' m' b' s')

theorem nameless_binary_congr {a a' b b' : Core} (ha : a.nameless [] = a'.nameless [])
    (hb : b.nameless [] = b'.nameless []) (o : Core.Binary) :
    (binary o a b).nameless [] = (binary o a' b').nameless [] := by
  -- Both first operands are `Absurd` or neither of them is.
  have habsurd : a = absurd ↔ a' = absurd := by
    rw [← nameless_eq_const_iff [] a, ← nameless_eq_const_iff [] a', ha]
  rw [nameless_binary, nameless_binary, ha, hb]
  simp only [habsurd]

theorem sameNameless_isCongruence : IsCongruence fun t u => t.nameless [] = u.nameless [] where
  todo h span := by simp only [nameless, h]
  quant hbase hfamily q x := by
    simp only [nameless, hbase, nameless_eq_of_nameless_nil hfamily [x]]
  lam h x := by simp only [nameless, nameless_eq_of_nameless_nil h [x]]
  unary h o := by simp only [nameless, h]
  binary ha hb o := nameless_binary_congr ha hb o
  ternary ha hb hc o := by simp only [nameless, ha, hb, hc]
  quaternary ha hb hc hd o := by simp only [nameless, ha, hb, hc, hd]
  indVec hl ht hm hb hs := by simp only [nameless, hl, ht, hm, hb, hs]

theorem alphaEquivalent_isCongruence : IsCongruence fun t u => t.alphaEquivalent u = true := by
  have heq : (fun t u : Core => t.alphaEquivalent u = true) = fun t u =>
      t.nameless [] = u.nameless [] := by
    funext t u
    exact propext alphaEquivalent_iff
  rw [heq]
  exact sameNameless_isCongruence

theorem alphaEquivalent_equivalence :
    Equivalence fun t u : Core => t.alphaEquivalent u = true :=
  ⟨alphaEquivalent_refl, alphaEquivalent_symm, alphaEquivalent_trans⟩

end Core

/-! ## Comparing values -/

/-- A symmetric and transitive relation that holds of everything in a domain and itself. -/
structure IsEquivalenceOn {α : Type} (domain : α → Prop) (R : α → α → Prop) : Prop where
  refl : ∀ {a}, domain a → R a a
  symm : ∀ {a b}, R a b → R b a
  trans : ∀ {a b c}, R a b → R b c → R a c

/-- Comparing by what is read, if anything is, is an equivalence on what can be read. -/
theorem isEquivalenceOn_of_read {α : Type} {read : α → Outcome Core} {R : α → α → Prop}
    (hR : ∀ a b, R a b ↔ ∃ t u, read a = .ok t ∧ read b = .ok u ∧ t.alphaEquivalent u = true) :
    IsEquivalenceOn (fun a => ∃ t, read a = .ok t) R where
  refl := by
    rintro a ⟨t, ht⟩
    exact (hR a a).2 ⟨t, t, ht, ht, t.alphaEquivalent_refl⟩
  symm := by
    intro a b hab
    obtain ⟨t, u, ht, hu, htu⟩ := (hR a b).1 hab
    exact (hR b a).2 ⟨u, t, hu, ht, Core.alphaEquivalent_symm htu⟩
  trans := by
    intro a b c hab hbc
    obtain ⟨t, u, ht, hu, htu⟩ := (hR a b).1 hab
    obtain ⟨u', v, hu', hv, huv⟩ := (hR b c).1 hbc
    obtain rfl : u = u' := Except.ok.inj (hu.symm.trans hu')
    exact (hR a c).2 ⟨t, v, ht, hv, Core.alphaEquivalent_trans htu huv⟩

namespace Context

variable {E : Engine} {Γ : Context}

/-- Two values of a type are the same if they read back to terms that are equal up to bound
names. -/
theorem convert_eq_ok_iff {ty left right : Value} :
    Γ.convert E ty left right = .ok () ↔
      ∃ t u, Γ.readBack E ty left = .ok t ∧ Γ.readBack E ty right = .ok u ∧
      t.alphaEquivalent u = true := by
  constructor
  · intro h
    obtain ⟨t, ht, h⟩ := bind_eq_ok_iff.1 h
    obtain ⟨u, hu, h⟩ := bind_eq_ok_iff.1 h
    have ht : Γ.readBack E ty left = .ok t := Outcome.unrejected_eq_ok_iff.1 ht
    have hu : Γ.readBack E ty right = .ok u := Outcome.unrejected_eq_ok_iff.1 hu
    split at h
    · rename_i htu
      exact ⟨t, u, ht, hu, htu⟩
    · obtain ⟨T, -, h⟩ := bind_eq_ok_iff.1 h
      cases h
  · rintro ⟨t, u, ht, hu, htu⟩
    unfold convert
    rw [ht, hu]
    exact if_pos htu

theorem convert_isEquivalenceOn (E : Engine) (Γ : Context) (ty : Value) :
    IsEquivalenceOn (fun v => ∃ t, Γ.readBack E ty v = .ok t) fun a b =>
      Γ.convert E ty a b = .ok () :=
  isEquivalenceOn_of_read fun _ _ => convert_eq_ok_iff

theorem sameType_isEquivalenceOn (E : Engine) (Γ : Context) :
    IsEquivalenceOn (fun ty => ∃ t, Γ.readBackType E ty = .ok t) fun a b =>
      Γ.sameType E a b = .ok () :=
  isEquivalenceOn_of_read fun _ _ => sameType_eq_ok_iff

end Context

namespace Core

/-- Equality up to bound names is equality of nameless terms. So it is an equivalence and a
congruence, and in every context the comparisons of values of a type and of types are symmetric
and transitive, and reflexive wherever read-back returns. -/
theorem alphaEquivalent_is_nameless_equality :
    (∀ t u : Core, t.alphaEquivalent u = true ↔ t.nameless [] = u.nameless []) ∧
    (Equivalence fun t u : Core => t.alphaEquivalent u = true) ∧
    (IsCongruence fun t u => t.alphaEquivalent u = true) ∧
    (∀ (E : Engine) (Γ : Context) (ty : Value),
      IsEquivalenceOn (fun v => ∃ t, Γ.readBack E ty v = .ok t) fun a b =>
        Γ.convert E ty a b = .ok ()) ∧
    ∀ (E : Engine) (Γ : Context),
      IsEquivalenceOn (fun ty => ∃ t, Γ.readBackType E ty = .ok t) fun a b =>
        Γ.sameType E a b = .ok () := by
  refine ⟨?_, alphaEquivalent_equivalence, alphaEquivalent_isCongruence, ?_, ?_⟩
  · intro t u
    exact alphaEquivalent_iff
  · intro E Γ ty
    exact Γ.convert_isEquivalenceOn E ty
  · intro E Γ
    exact Γ.sameType_isEquivalenceOn E

end Core

end PieChecker
