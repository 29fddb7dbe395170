import PieChecker.Proofs.Canonicity.Code
import PieChecker.Proofs.Simulation.Alpha

set_option autoImplicit false

/-!
# What terms mean in an instance of a context

An instance of a context gives every name a closed value, with a code of its type. In an
instance a term stands for a closed value or for a closed type, and `Derives` says for which
ones, by one rule for each kind of term. A binder has a premise for every value of its type. The
rules talk about closed values only; nothing is stuck in an instance.

The rules are sound, `Derives.sound`: evaluation gives what they say, up to equality of
elements. It does so for all terms that are equal up to bound names, and in every environment
that fits the instance.
-/

namespace PieChecker

/-! ## Terms that are equal up to bound names -/

theorem NameRelation.push_self {σ : NameRelation} (x : String) (hσ : ∀ y, σ y y) (y : String) :
    σ.push x x y y := by
  by_cases hy : y = x
  · exact Or.inl ⟨hy, hy⟩
  · exact Or.inr ⟨hy, hy, hσ y⟩

/-- Two terms are equal up to the names of their binders, and their free names correspond. All
proofs of `Absurd` count as one. -/
inductive Core.Like : NameRelation → Core → Core → Prop where
  | var {σ : NameRelation} {x y : String} (h : σ x y) : Like σ (.var x) (.var y)
  | const {σ : NameRelation} (c : Const) : Like σ (.const c) (.const c)
  | quote {σ : NameRelation} (a : String) : Like σ (.quote a) (.quote a)
  | todo {σ : NameRelation} (s : Span) {ty ty' : Core} (h : Like σ ty ty') :
      Like σ (.todo s ty) (.todo s ty')
  | quant {σ : NameRelation} (q : Quantifier) {x y : String} {base base' family family' : Core}
    (hb : Like σ base base') (hf : Like (σ.push x y) family family') :
    Like σ (.quant q x base family) (.quant q y base' family')
  | lam {σ : NameRelation} {x y : String} {body body' : Core}
      (h : Like (σ.push x y) body body') :
    Like σ (.lam x body) (.lam y body')
  | unary {σ : NameRelation} (o : Unary) {a a' : Core} (ha : Like σ a a') :
      Like σ (.unary o a) (.unary o a')
  | absurd {σ : NameRelation} (a b : Core) : Like σ (.the .absurd a) (.the .absurd b)
  | binary {σ : NameRelation} (o : Core.Binary) {a a' b b' : Core} (ha : Like σ a a')
      (hb : Like σ b b') :
    Like σ (.binary o a b) (.binary o a' b')
  | ternary {σ : NameRelation} (o : Core.Ternary) {a a' b b' c c' : Core} (ha : Like σ a a')
      (hb : Like σ b b')
    (hc : Like σ c c') : Like σ (.ternary o a b c) (.ternary o a' b' c')
  | quaternary {σ : NameRelation} (o : Core.Quaternary) {a a' b b' c c' d d' : Core}
      (ha : Like σ a a')
    (hb : Like σ b b') (hc : Like σ c c') (hd : Like σ d d') :
    Like σ (.quaternary o a b c d) (.quaternary o a' b' c' d')
  | indVec {σ : NameRelation} {l l' t t' m m' b b' s s' : Core} (hl : Like σ l l')
      (ht : Like σ t t')
    (hm : Like σ m m') (hb : Like σ b b') (hs : Like σ s s') :
    Like σ (.indVec l t m b s) (.indVec l' t' m' b' s')

namespace Core.Like

theorem refl {σ : NameRelation} (hσ : ∀ x, σ x x) (t : Core) : Like σ t t := by
  induction t generalizing σ with
  | var x => exact .var (hσ x)
  | const c => exact .const c
  | quote a => exact .quote a
  | todo s ty ih => exact .todo s (ih hσ)
  | quant q x base family ihb ihf => exact .quant q (ihb hσ) (ihf (NameRelation.push_self x hσ))
  | lam x body ih => exact .lam (ih (NameRelation.push_self x hσ))
  | unary o a ih => exact .unary o (ih hσ)
  | binary o a b iha ihb => exact .binary o (iha hσ) (ihb hσ)
  | ternary o a b c iha ihb ihc => exact .ternary o (iha hσ) (ihb hσ) (ihc hσ)
  | quaternary o a b c d iha ihb ihc ihd =>
    exact .quaternary o (iha hσ) (ihb hσ) (ihc hσ) (ihd hσ)
  | indVec l t m b s ihl iht ihm ihb ihs =>
    exact .indVec (ihl hσ) (iht hσ) (ihm hσ) (ihb hσ) (ihs hσ)

/-- What the checker compares is equality up to bound names. -/
theorem of_alphaEquivalentUnder {ls rs : List String} {σ : NameRelation}
    (hσ : ∀ x y, sameVariable ls rs x y = true → σ x y) {t t' : Core}
    (h : alphaEquivalentUnder ls rs t t' = true) : Like σ t t' := by
  have hpush : ∀ {ls rs : List String} {σ : NameRelation} (x y : String),
      (∀ a b, sameVariable ls rs a b = true → σ a b) →
      ∀ a b, sameVariable (x :: ls) (y :: rs) a b = true → σ.push x y a b := by
    intro ls rs σ x y hσ a b h
    rw [sameVariable_cons] at h
    split at h
    · rename_i ha
      exact Or.inl ⟨ha, of_decide_eq_true h⟩
    · rename_i ha
      split at h
      · cases h
      · rename_i hb
        exact Or.inr ⟨ha, hb, hσ a b h⟩
  induction t generalizing ls rs σ t' with
  | var x =>
    cases t' <;> simp only [alphaEquivalentUnder,
      Bool.false_eq_true] at h; exact .var (hσ _ _ h)
  | const c =>
    cases t' <;> simp only [alphaEquivalentUnder, Bool.false_eq_true, decide_eq_true_eq] at h
    exact h ▸ .const c
  | quote a =>
    cases t' <;> simp only [alphaEquivalentUnder, Bool.false_eq_true, decide_eq_true_eq] at h
    exact h ▸ .quote a
  | todo s ty ih =>
    cases t' <;> simp only [alphaEquivalentUnder, Bool.false_eq_true, Bool.and_eq_true,
      decide_eq_true_eq] at h
    exact h.1 ▸ .todo s (ih hσ h.2)
  | quant q x base family ihb ihf =>
    cases t' <;> simp only [alphaEquivalentUnder, Bool.false_eq_true, Bool.and_eq_true,
      decide_eq_true_eq] at h
    obtain ⟨⟨rfl, hb⟩, hf⟩ := h
    exact .quant q (ihb hσ hb) (ihf (hpush _ _ hσ) hf)
  | lam x body ih =>
    cases t' <;> simp only [alphaEquivalentUnder, Bool.false_eq_true] at h
    exact .lam (ih (hpush _ _ hσ) h)
  | unary o a ih =>
    cases t' <;> simp only [alphaEquivalentUnder, Bool.false_eq_true, Bool.and_eq_true,
      decide_eq_true_eq] at h
    obtain ⟨rfl, ha⟩ := h
    exact .unary o (ih hσ ha)
  | binary o a b iha ihb =>
    cases t' with
    | binary o' a' b' =>
      rw [alphaEquivalentUnder_binary] at h
      split at h
      · rename_i habsurd
        obtain ⟨rfl, rfl, rfl, rfl⟩ := habsurd
        exact .absurd b b'
      · simp only [Bool.and_eq_true, decide_eq_true_eq] at h
        obtain ⟨⟨rfl, ha⟩, hb⟩ := h
        exact .binary o (iha hσ ha) (ihb hσ hb)
    | _ => simp [alphaEquivalentUnder] at h
  | ternary o a b c iha ihb ihc =>
    cases t' <;> simp only [alphaEquivalentUnder, Bool.false_eq_true, Bool.and_eq_true,
      decide_eq_true_eq] at h
    obtain ⟨⟨⟨rfl, ha⟩, hb⟩, hc⟩ := h
    exact .ternary o (iha hσ ha) (ihb hσ hb) (ihc hσ hc)
  | quaternary o a b c d iha ihb ihc ihd =>
    cases t' <;> simp only [alphaEquivalentUnder, Bool.false_eq_true, Bool.and_eq_true,
      decide_eq_true_eq] at h
    obtain ⟨⟨⟨⟨rfl, ha⟩, hb⟩, hc⟩, hd⟩ := h
    exact .quaternary o (iha hσ ha) (ihb hσ hb) (ihc hσ hc) (ihd hσ hd)
  | indVec l t m b s ihl iht ihm ihb ihs =>
    cases t' <;> simp only [alphaEquivalentUnder, Bool.false_eq_true, Bool.and_eq_true] at h
    obtain ⟨⟨⟨⟨hl, ht⟩, hm⟩, hb⟩, hs⟩ := h
    exact .indVec (ihl hσ hl) (iht hσ ht) (ihm hσ hm) (ihb hσ hb) (ihs hσ hs)

end Core.Like

/-! ## Instances -/

/-- The names of a context with the closed values they are given and the codes of their types,
the newest first. -/
abbrev Instance := List (String × Code × Value)

namespace Instance

/-- The values alone. -/
def environment (Θ : Instance) : Environment := Θ.map fun (x, _, a) => (x, a)

theorem lookup_environment (Θ : Instance) (x : String) :
    Θ.environment.lookup x = (Θ.lookup x).map Prod.snd := by
  induction Θ with
  | nil => rfl
  | cons entry Θ ih =>
    obtain ⟨y, S, a⟩ := entry
    simp only [environment, List.map_cons, List.lookup_cons]
    split
    · rfl
    · exact ih

/-- The values have the types. -/
def Valid (Θ : Instance) : Prop := ∀ x S a, Θ.lookup x = some (S, a) → S.Denoted ∧ S.Relates a a

/-- An environment gives the corresponding names equal values. -/
def Covers (Θ : Instance) (σ : NameRelation) (γ : Environment) : Prop :=
  ∀ x y S a, σ x y → Θ.lookup x = some (S, a) → ∃ v, γ.lookup y = some v ∧ S.Relates v a

variable {Θ : Instance} {A : Code} {a : Value}

theorem Valid.cons (h : Θ.Valid) (x : String) (hA : A.Denoted) (ha : A.Relates a a) :
    Valid ((x, A, a) :: Θ) := by
  intro y S b hy
  rw [List.lookup_cons] at hy
  split at hy
  · cases hy
    exact ⟨hA, ha⟩
  · exact h y S b hy

theorem Valid.covers (h : Θ.Valid) : Θ.Covers Eq Θ.environment := by
  rintro x _ S a rfl hx
  exact ⟨a, by rw [lookup_environment, hx]; rfl, (h x S a hx).2⟩

theorem Covers.cons {σ : NameRelation} {γ : Environment} (h : Θ.Covers σ γ)
    (x y : String) {b : Value} (hb : A.Relates b a) :
    Covers ((x, A, a) :: Θ) (σ.push x y) ((y, b) :: γ) := by
  intro x' y' S c hσ hx'
  rw [List.lookup_cons] at hx' ⊢
  obtain ⟨rfl, rfl⟩ | ⟨hx, hy, hσ⟩ := hσ
  · rw [beq_self_eq_true] at hx' ⊢
    cases hx'
    exact ⟨b, rfl, hb⟩
  · rw [beq_eq_false_iff_ne.2 hx] at hx'
    rw [beq_eq_false_iff_ne.2 hy]
    exact h x' y' S c hσ hx'

end Instance

/-! ## Meanings -/

/-- What a term stands for in an instance. -/
inductive Meaning where
  /-- A type with the given code. -/
  | type (S : Code)
  /-- An element equal to the given one. -/
  | element (w : Value) (S : Code)
  /-- A function that takes what equals `a` to what equals `s`. Nothing is said about other
  arguments. -/
  | function (A : Code) (a : Value) (R : Code) (s : Value)

/-- What a term stands for in an instance, by the form of the term. -/
inductive Derives : Instance → Core → Meaning → Prop where
  -- Types.
  | const {Θ : Instance} {c : Const} {S : Code} (h : S.Denotes (.const c)) :
      Derives Θ (.const c) (.type S)
  | quant {Θ : Instance} (q : Quantifier) {x : String} {base family : Core} {A : Code}
      {F : Value → Code}
    (hbase : Derives Θ base (.type A))
    (hfamily : ∀ a, A.Relates a a → Derives ((x, A, a) :: Θ) family (.type (F a))) :
    Derives Θ (.quant q x base family) (.type (.quant q A F))
  | list {Θ : Instance} {e : Core} {A : Code} (h : Derives Θ e (.type A)) :
      Derives Θ (.unary .list e) (.type (.list A))
  | vec {Θ : Instance} {e l : Core} {A : Code} {n : Value} (he : Derives Θ e (.type A))
    (hl : Derives Θ l (.element n .nat)) : Derives Θ (.binary .vec e l) (.type (.vec A n))
  | either {Θ : Instance} {l r : Core} {A B : Code} (hl : Derives Θ l (.type A))
      (hr : Derives Θ r (.type B)) :
    Derives Θ (.binary .either l r) (.type (.either A B))
  | equal {Θ : Instance} {s l r : Core} {A : Code} {a b : Value} (hs : Derives Θ s (.type A))
    (hl : Derives Θ l (.element a A)) (hr : Derives Θ r (.element b A)) :
    Derives Θ (.ternary .equal s l r) (.type (.equal A a b))
  /-- An element of the universe is a type. -/
  | el {Θ : Instance} {t : Core} {T : Value} {S : Code} (h : Derives Θ t (.element T .univ))
      (hT : S.Denotes T) :
    Derives Θ t (.type S)
  /-- A small type is an element of the universe. -/
  | small {Θ : Instance} {t : Core} {T : Value} {S : Code} (h : Derives Θ t (.type S))
      (hS : S.Small)
    (hT : S.Denotes T) : Derives Θ t (.element T .univ)
  -- Equality.
  | conv {Θ : Instance} {t : Core} {w : Value} {S S' : Code} (h : Derives Θ t (.element w S))
      (hS : S.Agree S') :
    Derives Θ t (.element w S')
  | rel {Θ : Instance} {t : Core} {w w' : Value} {S : Code} (h : Derives Θ t (.element w S))
      (hw : S.Relates w w') :
    Derives Θ t (.element w' S)
  -- Variables and constructors.
  | var {Θ : Instance} {x : String} {w : Value} {S : Code} (h : Θ.lookup x = some (S, w)) :
    Derives Θ (.var x) (.element w S)
  | the {Θ : Instance} {ty t : Core} {w : Value} {S : Code} (hty : Derives Θ ty (.type S))
    (h : Derives Θ t (.element w S)) : Derives Θ (.the ty t) (.element w S)
  | zero {Θ : Instance} : Derives Θ .zero (.element .zero .nat)
  | add1 {Θ : Instance} {t : Core} {n : Value} (h : Derives Θ t (.element n .nat)) :
    Derives Θ (.add1 t) (.element (.add1 n) .nat)
  | quote {Θ : Instance} (a : String) : Derives Θ (.quote a) (.element (.quote a) .atom)
  | sole {Θ : Instance} : Derives Θ (.const .sole) (.element (.const .sole) .trivial)
  | nil {Θ : Instance} {A : Code} (hA : A.Denoted) :
      Derives Θ (.const .nil) (.element (.const .nil) (.list A))
  | listCons {Θ : Instance} {h t : Core} {a as : Value} {A : Code}
      (ha : Derives Θ h (.element a A))
    (has : Derives Θ t (.element as (.list A))) :
    Derives Θ (.binary .listCons h t) (.element (.listCons a as) (.list A))
  | vecnil {Θ : Instance} {A : Code} (hA : A.Denoted) :
    Derives Θ (.const .vecnil) (.element (.const .vecnil) (.vec A .zero))
  | vecCons {Θ : Instance} {h t : Core} {a as n : Value} {A : Code}
      (ha : Derives Θ h (.element a A))
    (has : Derives Θ t (.element as (.vec A n))) :
    Derives Θ (.binary .vecCons h t) (.element (.vecCons a as) (.vec A (.add1 n)))
  | left {Θ : Instance} {t : Core} {a : Value} {A B : Code} (h : Derives Θ t (.element a A))
      (hB : B.Denoted) :
    Derives Θ (.unary .left t) (.element (.unary .left a) (.either A B))
  | right {Θ : Instance} {t : Core} {a : Value} {A B : Code} (h : Derives Θ t (.element a B))
      (hA : A.Denoted) :
    Derives Θ (.unary .right t) (.element (.unary .right a) (.either A B))
  | same {Θ : Instance} {t : Core} {a : Value} {A : Code} (h : Derives Θ t (.element a A)) :
    Derives Θ (.unary .same t) (.element (.same a) (.equal A a a))
  | cons {Θ : Instance} {h t : Core} {a d : Value} {A : Code} {F : Value → Code}
      (hS : (Code.quant .sigma A F).Denoted)
    (ha : Derives Θ h (.element a A)) (hd : Derives Θ t (.element d (F a))) :
    Derives Θ (.binary .cons h t) (.element (.cons a d) (.quant .sigma A F))
  | lam {Θ : Instance} {x : String} {body : Core} {w : Value} {A : Code} {F : Value → Code}
      {r : Value → Value}
    (hS : (Code.quant .pi A F).Denoted) (hw : (Code.quant .pi A F).Relates w w)
    (hr : ∀ a, A.Relates a a → w.Applies a (r a))
    (hbody : ∀ a, A.Relates a a → Derives ((x, A, a) :: Θ) body (.element (r a) (F a))) :
    Derives Θ (.lam x body) (.element w (.quant .pi A F))
  -- Functions near a point.
  | ofPi {Θ : Instance} {t : Core} {w a s : Value} {A : Code} {F : Value → Code}
    (h : Derives Θ t (.element w (.quant .pi A F))) (ha : A.Relates a a) (hs : w.Applies a s) :
    Derives Θ t (.function A a (F a) s)
  | lamAt {Θ : Instance} {x : String} {body : Core} {a s : Value} {A R : Code} (hA : A.Denoted)
      (ha : A.Relates a a)
    (hbody : ∀ b, A.Relates b a → Derives ((x, A, b) :: Θ) body (.element s R)) :
    Derives Θ (.lam x body) (.function A a R s)
  -- Eliminators.
  | apply {Θ : Instance} {f t : Core} {w a r : Value} {A : Code} {F : Value → Code}
    (hf : Derives Θ f (.element w (.quant .pi A F))) (ha : Derives Θ t (.element a A))
    (hr : w.Applies a r) :
    Derives Θ (.apply f t) (.element r (F a))
  | car {Θ : Instance} {t : Core} {a d : Value} {A : Code} {F : Value → Code}
    (h : Derives Θ t (.element (.cons a d) (.quant .sigma A F))) :
    Derives Θ (.unary .car t) (.element a A)
  | cdr {Θ : Instance} {t : Core} {a d : Value} {A : Code} {F : Value → Code}
    (h : Derives Θ t (.element (.cons a d) (.quant .sigma A F))) :
    Derives Θ (.unary .cdr t) (.element d (F a))
  | head {Θ : Instance} {t : Core} {a as n : Value} {A : Code}
    (h : Derives Θ t (.element (.vecCons a as) (.vec A (.add1 n)))) :
    Derives Θ (.unary .head t) (.element a A)
  | tail {Θ : Instance} {t : Core} {a as n : Value} {A : Code}
    (h : Derives Θ t (.element (.vecCons a as) (.vec A (.add1 n)))) :
    Derives Θ (.unary .tail t) (.element as (.vec A n))
  | symm {Θ : Instance} {t : Core} {w l r : Value} {A : Code}
      (h : Derives Θ t (.element w (.equal A l r))) :
    Derives Θ (.unary .symm t) (.element w (.equal A r l))
  | trans {Θ : Instance} {t t' : Core} {w w' l m r : Value} {A : Code}
      (h : Derives Θ t (.element w (.equal A l m)))
    (h' : Derives Θ t' (.element w' (.equal A m r))) :
    Derives Θ (.binary .trans t t') (.element w (.equal A l r))
  | cong {Θ : Instance} {t ty f : Core} {w l r s : Value} {A R : Code}
      (h : Derives Θ t (.element w (.equal A l r)))
    (hty : Derives Θ ty (.type R)) (hf : Derives Θ f (.function A l R s)) :
    Derives Θ (.ternary .cong t ty f) (.element (.same s) (.equal R s s))
  | replace {Θ : Instance} {t m b : Core} {w wm wb l r T : Value} {A R : Code}
    (h : Derives Θ t (.element w (.equal A l r)))
    (hm : Derives Θ m (.element wm (.arrow A .univ))) (hT : wm.Applies r T) (hR : R.Denotes T)
    (hb : Derives Θ b (.element wb R)) :
    Derives Θ (.ternary .replace t m b) (.element wb R)
  | indEq {Θ : Instance} {t m b : Core} {w wm wb l r f T : Value} {A R : Code}
    (h : Derives Θ t (.element w (.equal A l r)))
    (hm : Derives Θ m (.element wm (.quant .pi A fun a => .arrow (.equal A l a) .univ)))
    (hf : wm.Applies r f) (hT : f.Applies w T) (hR : R.Denotes T)
    (hb : Derives Θ b (.element wb R)) :
    Derives Θ (.ternary .indEq t m b) (.element wb R)
  | whichNat {Θ : Instance} {t ty b s : Core} {n wb ws w : Value} {R : Code}
      (ht : Derives Θ t (.element n .nat))
    (hty : Derives Θ ty (.type R)) (hb : Derives Θ b (.element wb R))
    (hs : Derives Θ s (.element ws (.arrow .nat R))) (hw : Value.NatCase wb ws n w) :
    Derives Θ (.quaternary .whichNat t ty b s) (.element w R)
  | iterNat {Θ : Instance} {t ty b s : Core} {n wb ws w : Value} {R : Code}
      (ht : Derives Θ t (.element n .nat))
    (hty : Derives Θ ty (.type R)) (hb : Derives Θ b (.element wb R))
    (hs : Derives Θ s (.element ws (.arrow R R))) (hw : Value.NatIter wb ws n w) :
    Derives Θ (.quaternary .iterNat t ty b s) (.element w R)
  | recNat {Θ : Instance} {t ty b s : Core} {n wb ws w : Value} {R : Code}
      (ht : Derives Θ t (.element n .nat))
    (hty : Derives Θ ty (.type R)) (hb : Derives Θ b (.element wb R))
    (hs : Derives Θ s (.element ws (.natStep fun _ => R))) (hw : Value.NatRec wb ws n w) :
    Derives Θ (.quaternary .recNat t ty b s) (.element w R)
  | recList {Θ : Instance} {t ty b s : Core} {as wb ws w : Value} {A R : Code}
    (ht : Derives Θ t (.element as (.list A))) (hty : Derives Θ ty (.type R))
    (hb : Derives Θ b (.element wb R)) (hs : Derives Θ s (.element ws (.listStep A fun _ => R)))
    (hw : Value.ListRec wb ws as w) :
    Derives Θ (.quaternary .recList t ty b s) (.element w R)
  | indNat {Θ : Instance} {t m b s : Core} {n wm wb ws w : Value} {P : Value → Code}
    (ht : Derives Θ t (.element n .nat)) (hm : Derives Θ m (.element wm (.arrow .nat .univ)))
    (hP : Code.Motive wm .nat P) (hb : Derives Θ b (.element wb (P .zero)))
    (hs : Derives Θ s (.element ws (.natStep P))) (hw : Value.NatRec wb ws n w) :
    Derives Θ (.quaternary .indNat t m b s) (.element w (P n))
  | indList {Θ : Instance} {t m b s : Core} {as wm wb ws w : Value} {A : Code}
      {P : Value → Code}
    (ht : Derives Θ t (.element as (.list A)))
    (hm : Derives Θ m (.element wm (.arrow (.list A) .univ))) (hP : Code.Motive wm (.list A) P)
    (hb : Derives Θ b (.element wb (P (.const .nil))))
    (hs : Derives Θ s (.element ws (.listStep A P))) (hw : Value.ListRec wb ws as w) :
    Derives Θ (.quaternary .indList t m b s) (.element w (P as))
  | indEither {Θ : Instance} {t m l r : Core} {e wm wl wr w : Value} {A B : Code}
      {P : Value → Code}
    (ht : Derives Θ t (.element e (.either A B)))
    (hm : Derives Θ m (.element wm (.arrow (.either A B) .univ)))
    (hP : Code.Motive wm (.either A B) P)
    (hl : Derives Θ l (.element wl (.quant .pi A fun a => P (.unary .left a))))
    (hr : Derives Θ r (.element wr (.quant .pi B fun b => P (.unary .right b))))
    (hw : Value.SumCase wl wr e w) :
    Derives Θ (.quaternary .indEither t m l r) (.element w (P e))
  | indVec {Θ : Instance} {l t m b s : Core} {n as wm wb ws w : Value} {A : Code}
      {P : Value → Value → Code}
    (hl : Derives Θ l (.element n .nat)) (ht : Derives Θ t (.element as (.vec A n)))
    (hm : Derives Θ m (.element wm (.quant .pi .nat fun k => .arrow (.vec A k) .univ)))
    (hP : Code.VecMotive wm A P) (hb : Derives Θ b (.element wb (P .zero (.const .vecnil))))
    (hs : Derives Θ s (.element ws (.vecStep A P))) (hw : Value.VecRec wb ws n as w) :
    Derives Θ (.indVec l t m b s) (.element w (P n as))

/-! ## Soundness -/

namespace Meaning

/-- In an environment, a term evaluates to what it stands for. -/
def Holds (γ : Environment) (t : Core) : Meaning → Prop
  | type S => ∃ T, t.Evaluates γ T ∧ S.Denotes T
  | element w S => S.Denoted ∧ ∃ v, t.Evaluates γ v ∧ S.Relates v w
  | function A a R s => R.Denoted ∧ ∃ f, t.Evaluates γ f ∧ ∀ b, A.Relates b a →
      ∃ r, f.Applies b r ∧ R.Relates r s

namespace Holds

open PieChecker.Core (Evaluates)
open Value

variable {γ : Environment} {t t' ty m b f : Core} {w w' a as d l r s n T wm wb ws wt : Value}
variable {A B R S : Code} {F P : Value → Code}

theorem el (h : (element T .univ).Holds γ t) (hT : S.Denotes T) : (type S).Holds γ t := by
  obtain ⟨-, T', ht, hT'⟩ := h
  obtain ⟨S', -, hS'T', hS'T⟩ := Code.relates_univ_iff.1 hT'
  exact ⟨T', ht, hT.denotes_eq hS'T ▸ hS'T'⟩

theorem small (h : (type S).Holds γ t) (hS : S.Small) (hT : S.Denotes T) :
    (element T .univ).Holds γ t := by
  obtain ⟨T', ht, hT'⟩ := h
  exact ⟨Code.denoted_univ, T', ht, Code.relates_univ_iff.2 ⟨S, hS, hT', hT⟩⟩

theorem conv {S' : Code} (h : (element w S).Holds γ t) (hS : S.Agree S') :
    (element w S').Holds γ t := by
  obtain ⟨-, v, ht, hv⟩ := h
  exact ⟨hS.right, v, ht, hS.relates hv⟩

theorem rel (h : (element w S).Holds γ t) (hw : S.Relates w w') : (element w' S).Holds γ t := by
  obtain ⟨hS, v, ht, hv⟩ := h
  exact ⟨hS, v, ht, hS.equivalence.trans hv hw⟩

theorem relates (h : (element w S).Holds γ t) : S.Relates w w := by
  obtain ⟨hS, v, -, hv⟩ := h
  exact hS.equivalence.right hv

theorem denoted (h : (type S).Holds γ t) : S.Denoted := by
  obtain ⟨T, -, hT⟩ := h
  exact ⟨T, hT⟩

/-! ### Types -/

theorem quant {q : Quantifier} {x : String} {base family : Core} (hbase : (type A).Holds γ base)
    (hfamily : ∀ a b, A.Relates b a → (type (F a)).Holds ((x, b) :: γ) family) :
    (type (.quant q A F)).Holds γ (.quant q x base family) := by
  obtain ⟨T, ht, hT⟩ := hbase
  refine ⟨_, .quant q x ht family, x, T, _, rfl, hT, fun a b hab => ?_⟩
  have hA := hT.equivalence
  obtain ⟨B, hB, hFB⟩ := hfamily a a (hA.left hab)
  obtain ⟨B', hB', hFB'⟩ := hfamily a b (hA.symm hab)
  exact ⟨B, B', .captured hB, .captured hB', hFB, hFB'⟩

theorem list (h : (type A).Holds γ t) : (type (.list A)).Holds γ (.unary .list t) := by
  obtain ⟨T, ht, hT⟩ := h
  exact ⟨_, .list ht, T, rfl, hT⟩

theorem vec (h : (type A).Holds γ t) (hn : (element n .nat).Holds γ t') :
    (type (.vec A n)).Holds γ (.binary .vec t t') := by
  obtain ⟨T, ht, hT⟩ := h
  obtain ⟨-, v, ht', rfl, hv⟩ := hn
  exact ⟨_, .vec ht ht', T, rfl, hv, hT⟩

theorem either (h : (type A).Holds γ t) (h' : (type B).Holds γ t') :
    (type (.either A B)).Holds γ (.binary .either t t') := by
  obtain ⟨T, ht, hT⟩ := h
  obtain ⟨T', ht', hT'⟩ := h'
  exact ⟨_, .either ht ht', T, T', rfl, hT, hT'⟩

theorem equal (h : (type A).Holds γ ty) (hl : (element l A).Holds γ t)
    (hr : (element r A).Holds γ t') :
    (type (.equal A l r)).Holds γ (.ternary .equal ty t t') := by
  obtain ⟨T, hty, hT⟩ := h
  obtain ⟨-, vl, ht, hvl⟩ := hl
  obtain ⟨-, vr, ht', hvr⟩ := hr
  exact ⟨_, .equal hty ht ht', T, vl, vr, rfl, hT, hvl, hvr⟩

/-! ### Constructors -/

theorem add1 (h : (element n .nat).Holds γ t) : (element (.add1 n) .nat).Holds γ (.add1 t) := by
  obtain ⟨hS, v, ht, rfl, hv⟩ := h
  exact ⟨hS, _, .add1 ht, rfl, .add1 hv⟩

theorem listCons (ha : (element a A).Holds γ t) (has : (element as (.list A)).Holds γ t') :
    (element (.listCons a as) (.list A)).Holds γ (.binary .listCons t t') := by
  obtain ⟨-, v, ht, hv⟩ := ha
  obtain ⟨hS, vs, ht', hvs⟩ := has
  exact ⟨hS, _, .listCons ht ht', Value.ListsRelated.cons hv hvs⟩

theorem vecCons (ha : (element a A).Holds γ t) (has : (element as (.vec A n)).Holds γ t') :
    (element (.vecCons a as) (.vec A (.add1 n))).Holds γ (.binary .vecCons t t') := by
  obtain ⟨-, v, ht, hv⟩ := ha
  obtain ⟨hS, vs, ht', hvs⟩ := has
  exact ⟨Code.denoted_vec hS.vec_entry (.add1 hS.vec_length), _, .vecCons ht ht',
    Value.VecsRelated.cons hv hvs⟩

theorem left (h : (element a A).Holds γ t) (hB : B.Denoted) :
    (element (.unary .left a) (.either A B)).Holds γ (.unary .left t) := by
  obtain ⟨hA, v, ht, hv⟩ := h
  exact ⟨Code.denoted_either hA hB, _, .left ht, Value.SumsRelated.left hv⟩

theorem right (h : (element a B).Holds γ t) (hA : A.Denoted) :
    (element (.unary .right a) (.either A B)).Holds γ (.unary .right t) := by
  obtain ⟨hB, v, ht, hv⟩ := h
  exact ⟨Code.denoted_either hA hB, _, .right ht, Value.SumsRelated.right hv⟩

theorem same (h : (element a A).Holds γ t) :
    (element (.same a) (.equal A a a)).Holds γ (.unary .same t) := by
  obtain ⟨hA, v, ht, hv⟩ := h
  have ha := hA.equivalence.right hv
  exact ⟨(Code.agree_equal hA ha ha).left, _, .same ht, v, a, rfl, rfl, hv, ha, ha⟩

theorem cons (hS : (Code.quant .sigma A F).Denoted) (ha : (element a A).Holds γ t)
    (hd : (element d (F a)).Holds γ t') :
    (element (.cons a d) (.quant .sigma A F)).Holds γ (.binary .cons t t') := by
  obtain ⟨-, va, ht, hva⟩ := ha
  obtain ⟨-, vd, ht', hvd⟩ := hd
  exact ⟨hS, _, .cons ht ht', va, vd, a, d, rfl, rfl, hva, (hS.family hva).symm.relates hvd⟩

theorem lam {x : String} {body : Core} {res : Value → Value} (hS : (Code.quant .pi A F).Denoted)
    (hw : (Code.quant .pi A F).Relates w w) (hr : ∀ a, A.Relates a a → w.Applies a (res a))
    (hbody : ∀ a b, A.Relates b a → (element (res a) (F a)).Holds ((x, b) :: γ) body) :
    (element w (.quant .pi A F)).Holds γ (.lam x body) := by
  refine ⟨hS, _, .lam x body, fun a b hab => ?_⟩
  have hA := hS.base.equivalence
  obtain ⟨hF, r, hbodyr, hrelates⟩ := hbody a a (hA.left hab)
  obtain ⟨r₁, r₂, h₁, h₂, h⟩ := hw a b hab
  obtain rfl := h₁.unique (hr a (hA.left hab))
  exact ⟨r, r₂, .lam (.captured hbodyr), h₂, hF.equivalence.trans hrelates h⟩

/-! ### Functions near a point -/

theorem ofPi (h : (element w (.quant .pi A F)).Holds γ t) (ha : A.Relates a a)
    (hs : w.Applies a s) :
    (function A a (F a) s).Holds γ t := by
  obtain ⟨hS, f, ht, hf⟩ := h
  refine ⟨(hS.family ha).left, f, ht, fun b hb => ?_⟩
  obtain ⟨r₁, r₂, h₁, h₂, h⟩ := hf b a hb
  obtain rfl := h₂.unique hs
  exact ⟨r₁, h₁, (hS.family hb).relates h⟩

theorem lamAt {x : String} {body : Core} (ha : A.Relates a a)
    (hbody : ∀ b, A.Relates b a → (element s R).Holds ((x, b) :: γ) body) :
    (function A a R s).Holds γ (.lam x body) := by
  refine ⟨(hbody a ha).1, _, .lam x body, fun b hb => ?_⟩
  obtain ⟨-, r, hr, hrelates⟩ := hbody b hb
  exact ⟨r, .lam (.captured hr), hrelates⟩

/-! ### Eliminators -/

theorem apply (hf : (element w (.quant .pi A F)).Holds γ f) (ha : (element a A).Holds γ t)
    (hr : w.Applies a r) :
    (element r (F a)).Holds γ (.apply f t) := by
  obtain ⟨hS, vf, hvf, hf⟩ := hf
  obtain ⟨-, va, hva, ha⟩ := ha
  obtain ⟨r₁, r₂, h₁, h₂, h⟩ := hf va a ha
  obtain rfl := h₂.unique hr
  have hagree := hS.family ha
  exact ⟨hagree.right, r₁, .apply hvf hva h₁, hagree.relates h⟩

theorem car (h : (element (.cons a d) (.quant .sigma A F)).Holds γ t) :
    (element a A).Holds γ (.unary .car t) := by
  obtain ⟨hS, _, ht, a', d', _, _, rfl, hw, ha, -⟩ := h
  cases hw
  exact ⟨hS.base, a', .car ht, ha⟩

theorem cdr (h : (element (.cons a d) (.quant .sigma A F)).Holds γ t) :
    (element d (F a)).Holds γ (.unary .cdr t) := by
  obtain ⟨hS, _, ht, a', d', _, _, rfl, hw, ha, hd⟩ := h
  cases hw
  have hagree := hS.family ha
  exact ⟨hagree.right, d', .cdr ht, hagree.relates hd⟩

theorem head (h : (element (.vecCons a as) (.vec A (.add1 n))).Holds γ t) :
    (element a A).Holds γ (.unary .head t) := by
  obtain ⟨hS, _, ht, hv⟩ := h
  cases hv with
  | cons ha has => exact ⟨hS.vec_entry, _, .head ht, ha⟩

theorem tail (h : (element (.vecCons a as) (.vec A (.add1 n))).Holds γ t) :
    (element as (.vec A n)).Holds γ (.unary .tail t) := by
  obtain ⟨hS, _, ht, hv⟩ := h
  cases hv with
  | cons ha has =>
    obtain _ | hn := hS.vec_length
    exact ⟨Code.denoted_vec hS.vec_entry hn, _, .tail ht, has⟩

theorem symm (h : (element w (.equal A l r)).Holds γ t) :
    (element w (.equal A r l)).Holds γ (.unary .symm t) := by
  obtain ⟨hS, _, ht, p, q, rfl, rfl, hp, hq, hlr⟩ := h
  have hA := hS.equal_space
  have hE := hA.equivalence
  exact ⟨(Code.agree_equal hA (hE.right hlr) (hE.left hlr)).left, _, .symm ht, p, q, rfl, rfl,
    hE.trans hp hlr, hE.trans hq hlr, hE.symm hlr⟩

theorem trans (h : (element w (.equal A l s)).Holds γ t)
    (h' : (element w' (.equal A s r)).Holds γ t') :
    (element w (.equal A l r)).Holds γ (.binary .trans t t') := by
  obtain ⟨hS, _, ht, p, q, rfl, rfl, hp, hq, hls⟩ := h
  obtain ⟨-, _, ht', p', q', rfl, rfl, hp', -, hsr⟩ := h'
  have hA := hS.equal_space
  have hE := hA.equivalence
  exact ⟨(Code.agree_equal hA (hE.left hls) (hE.right hsr)).left, _, .trans ht ht', p, q, rfl,
    rfl, hp, hq, hE.trans hls hsr⟩

theorem cong (h : (element w (.equal A l r)).Holds γ t) (hty : (type R).Holds γ ty)
    (hf : (function A l R s).Holds γ f) :
    (element (.same s) (.equal R s s)).Holds γ (.ternary .cong t ty f) := by
  obtain ⟨-, _, ht, p, q, rfl, rfl, hp, -, -⟩ := h
  obtain ⟨T, hT, -⟩ := hty
  obtain ⟨hR, vf, hvf, hf⟩ := hf
  obtain ⟨u, hu, hus⟩ := hf p hp
  have hs := hR.equivalence.right hus
  exact ⟨(Code.agree_equal hR hs hs).left, _, .cong ht hT hvf hu, u, s, rfl, rfl, hus, hs, hs⟩

theorem replace (h : (element w (.equal A l r)).Holds γ t) (hm : (element wm S).Holds γ m)
    (hb : (element wb R).Holds γ b) : (element wb R).Holds γ (.ternary .replace t m b) := by
  obtain ⟨-, _, ht, p, q, rfl, -⟩ := h
  obtain ⟨-, vm, hvm, -⟩ := hm
  obtain ⟨hR, vb, hvb, hb⟩ := hb
  exact ⟨hR, vb, .replace ht hvm hvb, hb⟩

theorem indEq (h : (element w (.equal A l r)).Holds γ t) (hm : (element wm S).Holds γ m)
    (hb : (element wb R).Holds γ b) : (element wb R).Holds γ (.ternary .indEq t m b) := by
  obtain ⟨-, _, ht, p, q, rfl, -⟩ := h
  obtain ⟨-, vm, hvm, -⟩ := hm
  obtain ⟨hR, vb, hvb, hb⟩ := hb
  exact ⟨hR, vb, .indEq ht hvm hvb, hb⟩

theorem whichNat (ht : (element n .nat).Holds γ t) (hty : (type R).Holds γ ty)
    (hb : (element wb R).Holds γ b) (hs : (element ws (.arrow .nat R)).Holds γ f)
    (hw : NatCase wb ws n w) :
    (element w R).Holds γ (.quaternary .whichNat t ty b f) := by
  obtain ⟨-, _, ht, rfl, hn⟩ := ht
  obtain ⟨T, hty, -⟩ := hty
  obtain ⟨hR, vb, hvb, hb⟩ := hb
  obtain ⟨-, vs, hvs, hs⟩ := hs
  obtain ⟨v, w', hv, hw', h⟩ := Code.natCase_relates hb hs hn
  obtain rfl := hw'.unique hw
  exact ⟨hR, v, .whichNat ht hty hvb hvs hv, h⟩

theorem iterNat (ht : (element n .nat).Holds γ t) (hty : (type R).Holds γ ty)
    (hb : (element wb R).Holds γ b) (hs : (element ws (.arrow R R)).Holds γ f)
    (hw : NatIter wb ws n w) :
    (element w R).Holds γ (.quaternary .iterNat t ty b f) := by
  obtain ⟨-, _, ht, rfl, hn⟩ := ht
  obtain ⟨T, hty, -⟩ := hty
  obtain ⟨hR, vb, hvb, hb⟩ := hb
  obtain ⟨-, vs, hvs, hs⟩ := hs
  obtain ⟨v, w', hv, hw', h⟩ := Code.natIter_relates hb hs hn
  obtain rfl := hw'.unique hw
  exact ⟨hR, v, .iterNat ht hty hvb hvs hv, h⟩

theorem recNat (ht : (element n .nat).Holds γ t) (hty : (type R).Holds γ ty)
    (hb : (element wb R).Holds γ b) (hs : (element ws (.natStep fun _ => R)).Holds γ f)
    (hw : NatRec wb ws n w) :
    (element w R).Holds γ (.quaternary .recNat t ty b f) := by
  obtain ⟨-, _, ht, rfl, hn⟩ := ht
  obtain ⟨T, hty, -⟩ := hty
  obtain ⟨hR, vb, hvb, hb⟩ := hb
  obtain ⟨-, vs, hvs, hs⟩ := hs
  obtain ⟨v, w', hv, hw', h⟩ := Code.natRec_relates (P := fun _ => R) hb hs hn
  obtain rfl := hw'.unique hw
  exact ⟨hR, v, .recNat ht hty hvb hvs hv, h⟩

theorem recList (ht : (element as (.list A)).Holds γ t) (hty : (type R).Holds γ ty)
    (hb : (element wb R).Holds γ b) (hs : (element ws (.listStep A fun _ => R)).Holds γ f)
    (hw : ListRec wb ws as w) :
    (element w R).Holds γ (.quaternary .recList t ty b f) := by
  obtain ⟨-, vt, hvt, ht⟩ := ht
  obtain ⟨T, hty, -⟩ := hty
  obtain ⟨hR, vb, hvb, hb⟩ := hb
  obtain ⟨-, vs, hvs, hs⟩ := hs
  obtain ⟨v, w', hv, hw', h⟩ := Code.listRec_relates (P := fun _ => R) hb hs ht
  obtain rfl := hw'.unique hw
  exact ⟨hR, v, .recList hvt hty hvb hvs hv, h⟩

theorem indNat (ht : (element n .nat).Holds γ t)
    (hm : (element wm (.arrow .nat .univ)).Holds γ m) (hP : Code.Motive wm .nat P)
    (hb : (element wb (P .zero)).Holds γ b) (hs : (element ws (.natStep P)).Holds γ f)
    (hw : NatRec wb ws n w) : (element w (P n)).Holds γ (.quaternary .indNat t m b f) := by
  obtain ⟨hnat, _, ht, rfl, hn⟩ := ht
  obtain ⟨-, vm, hvm, -⟩ := hm
  obtain ⟨-, vb, hvb, hb⟩ := hb
  obtain ⟨-, vs, hvs, hs⟩ := hs
  obtain ⟨v, w', hv, hw', h⟩ := Code.natRec_relates hb hs hn
  obtain rfl := hw'.unique hw
  exact ⟨(hP.agree hnat ⟨rfl, hn⟩).left, v, .indNat ht hvm hvb hvs hv, h⟩

theorem indList (ht : (element as (.list A)).Holds γ t)
    (hm : (element wm (.arrow (.list A) .univ)).Holds γ m) (hP : Code.Motive wm (.list A) P)
    (hb : (element wb (P (.const .nil))).Holds γ b)
    (hs : (element ws (.listStep A P)).Holds γ f) (hw : ListRec wb ws as w) :
    (element w (P as)).Holds γ (.quaternary .indList t m b f) := by
  obtain ⟨hA, vt, hvt, ht⟩ := ht
  obtain ⟨-, vm, hvm, -⟩ := hm
  obtain ⟨-, vb, hvb, hb⟩ := hb
  obtain ⟨-, vs, hvs, hs⟩ := hs
  obtain ⟨v, w', hv, hw', h⟩ := Code.listRec_relates hb hs ht
  obtain rfl := hw'.unique hw
  have hagree := hP.agree hA ht
  exact ⟨hagree.right, v, .indList hvt hvm hvb hvs hv, hagree.relates h⟩

theorem indEither (ht : (element wt (.either A B)).Holds γ t)
    (hm : (element wm (.arrow (.either A B) .univ)).Holds γ m)
    (hP : Code.Motive wm (.either A B) P)
    (hl : (element wb (.quant .pi A fun a => P (.unary .left a))).Holds γ b)
    (hr : (element ws (.quant .pi B fun a => P (.unary .right a))).Holds γ f)
    (hw : SumCase wb ws wt w) :
    (element w (P wt)).Holds γ (.quaternary .indEither t m b f) := by
  obtain ⟨hA, vt, hvt, ht⟩ := ht
  obtain ⟨-, vm, hvm, -⟩ := hm
  obtain ⟨-, vb, hvb, hb⟩ := hl
  obtain ⟨-, vs, hvs, hs⟩ := hr
  obtain ⟨v, w', hv, hw', h⟩ := Code.sumCase_relates hb hs ht
  obtain rfl := hw'.unique hw
  have hagree := hP.agree hA ht
  exact ⟨hagree.right, v, .indEither hvt hvm hvb hvs hv, hagree.relates h⟩

theorem indVec {P : Value → Value → Code} (hl : (element n .nat).Holds γ t')
    (ht : (element as (.vec A n)).Holds γ t)
    (hm : (element wm (.quant .pi .nat fun k => .arrow (.vec A k) .univ)).Holds γ m)
    (hP : Code.VecMotive wm A P) (hb : (element wb (P .zero (.const .vecnil))).Holds γ b)
    (hs : (element ws (.vecStep A P)).Holds γ f) (hw : VecRec wb ws n as w) :
    (element w (P n as)).Holds γ (.indVec t' t m b f) := by
  obtain ⟨-, _, hl, rfl, hn⟩ := hl
  obtain ⟨hA, vt, hvt, ht⟩ := ht
  obtain ⟨-, vm, hvm, -⟩ := hm
  obtain ⟨-, vb, hvb, hb⟩ := hb
  obtain ⟨-, vs, hvs, hs⟩ := hs
  obtain ⟨v, w', hv, hw', h⟩ := Code.vecRec_relates hb hs hn ht
  obtain rfl := hw'.unique hw
  obtain ⟨f, -, hf⟩ := hP _ hn
  have hagree := hf.agree hA ht
  exact ⟨hagree.right, v, .indVec hl hvt hvm hvb hvs hv, hagree.relates h⟩

end Holds

end Meaning

/-- Evaluation gives what the rules say, for every term that is equal up to bound names and in
every environment that fits the instance. -/
theorem Derives.sound {Θ : Instance} {t t' : Core} {M : Meaning} {σ : NameRelation}
    {γ : Environment} (h : Derives Θ t M) (hΘ : Θ.Valid) (hlike : t.Like σ t')
    (hγ : Θ.Covers σ γ) : M.Holds γ t' := by
  induction h generalizing σ t' γ with
  | @const _ c S h =>
    cases hlike
    exact ⟨_, .const c, h⟩
  | quant q _ _ ihbase ihfamily =>
    cases hlike with
    | quant _ hb hf =>
      have hA := ihbase hΘ hb hγ
      refine .quant hA fun a b hab => ?_
      have ha := hA.denoted.equivalence.right hab
      exact ihfamily a ha (hΘ.cons _ hA.denoted ha) hf (hγ.cons _ _ hab)
  | list _ ih =>
    cases hlike with
    | unary _ ha => exact .list (ih hΘ ha hγ)
  | vec _ _ ihe ihl =>
    cases hlike with
    | binary _ ha hb => exact .vec (ihe hΘ ha hγ) (ihl hΘ hb hγ)
  | either _ _ ihl ihr =>
    cases hlike with
    | binary _ ha hb => exact .either (ihl hΘ ha hγ) (ihr hΘ hb hγ)
  | equal _ _ _ ihs ihl ihr =>
    cases hlike with
    | ternary _ ha hb hc => exact .equal (ihs hΘ ha hγ) (ihl hΘ hb hγ) (ihr hΘ hc hγ)
  | el _ hT ih => exact .el (ih hΘ hlike hγ) hT
  | small _ hS hT ih => exact .small (ih hΘ hlike hγ) hS hT
  | conv _ hS ih => exact .conv (ih hΘ hlike hγ) hS
  | rel _ hw ih => exact .rel (ih hΘ hlike hγ) hw
  | var h =>
    cases hlike with
    | var hσ =>
      obtain ⟨v, hv, hvw⟩ := hγ _ _ _ _ hσ h
      exact ⟨(hΘ _ _ _ h).1, v, .var hv, hvw⟩
  | the _ _ ihty ih =>
    cases hlike with
    | absurd a b =>
      -- The terms are unrelated, but the first one would be a proof of `Absurd` in the instance
      -- itself.
      obtain ⟨T, hty, hT⟩ := ihty hΘ (.refl (fun _ => rfl) _) hΘ.covers
      obtain rfl := Settles.unique hty (Core.Evaluates.const .absurd)
      have hw := (ih hΘ (.refl (fun _ => rfl) _) hΘ.covers).relates
      rw [Code.eq_of_denotesIn_const hT .absurd rfl] at hw
      exact hw.elim
    | binary _ _ hb =>
      obtain ⟨hS, v, hv, hvw⟩ := ih hΘ hb hγ
      exact ⟨hS, v, .the _ hv, hvw⟩
  | zero =>
    cases hlike
    exact ⟨Code.denoted_nat, _, .const .zero, rfl, .zero⟩
  | add1 _ ih =>
    cases hlike with
    | unary _ ha => exact .add1 (ih hΘ ha hγ)
  | quote a =>
    cases hlike
    exact ⟨Code.denoted_atom, _, .quote a, a, rfl, rfl⟩
  | sole =>
    cases hlike
    exact ⟨Code.denoted_trivial, _, .const .sole, rfl, rfl⟩
  | nil hA =>
    cases hlike
    exact ⟨Code.denoted_list hA, _, .const .nil, Value.ListsRelated.nil⟩
  | listCons _ _ iha ihas =>
    cases hlike with
    | binary _ ha hb => exact .listCons (iha hΘ ha hγ) (ihas hΘ hb hγ)
  | vecnil hA =>
    cases hlike
    exact ⟨Code.denoted_vec hA .zero, _, .const .vecnil, Value.VecsRelated.nil⟩
  | vecCons _ _ iha ihas =>
    cases hlike with
    | binary _ ha hb => exact .vecCons (iha hΘ ha hγ) (ihas hΘ hb hγ)
  | left _ hB ih =>
    cases hlike with
    | unary _ ha => exact .left (ih hΘ ha hγ) hB
  | right _ hA ih =>
    cases hlike with
    | unary _ ha => exact .right (ih hΘ ha hγ) hA
  | same _ ih =>
    cases hlike with
    | unary _ ha => exact .same (ih hΘ ha hγ)
  | cons hS _ _ iha ihd =>
    cases hlike with
    | binary _ ha hb => exact .cons hS (iha hΘ ha hγ) (ihd hΘ hb hγ)
  | lam hS hw hr _ ih =>
    cases hlike with
    | lam hbody =>
      refine .lam hS hw hr fun a b hab => ?_
      have ha := hS.base.equivalence.right hab
      exact ih a ha (hΘ.cons _ hS.base ha) hbody (hγ.cons _ _ hab)
  | ofPi _ ha hs ih => exact .ofPi (ih hΘ hlike hγ) ha hs
  | lamAt hA ha _ ih =>
    cases hlike with
    | lam hbody =>
      refine .lamAt ha fun b hb => ?_
      have hb' := hA.equivalence.left hb
      exact ih b hb (hΘ.cons _ hA hb') hbody (hγ.cons _ _ hb')
  | apply _ _ hr ihf iha =>
    cases hlike with
    | binary _ hf ha => exact .apply (ihf hΘ hf hγ) (iha hΘ ha hγ) hr
  | car _ ih =>
    cases hlike with
    | unary _ ha => exact .car (ih hΘ ha hγ)
  | cdr _ ih =>
    cases hlike with
    | unary _ ha => exact .cdr (ih hΘ ha hγ)
  | head _ ih =>
    cases hlike with
    | unary _ ha => exact .head (ih hΘ ha hγ)
  | tail _ ih =>
    cases hlike with
    | unary _ ha => exact .tail (ih hΘ ha hγ)
  | symm _ ih =>
    cases hlike with
    | unary _ ha => exact .symm (ih hΘ ha hγ)
  | trans _ _ ih ih' =>
    cases hlike with
    | binary _ ha hb => exact .trans (ih hΘ ha hγ) (ih' hΘ hb hγ)
  | cong _ _ _ ih ihty ihf =>
    cases hlike with
    | ternary _ ha hb hc => exact .cong (ih hΘ ha hγ) (ihty hΘ hb hγ) (ihf hΘ hc hγ)
  | replace _ _ _ _ _ ih ihm ihb =>
    cases hlike with
    | ternary _ ha hb hc => exact .replace (ih hΘ ha hγ) (ihm hΘ hb hγ) (ihb hΘ hc hγ)
  | indEq _ _ _ _ _ _ ih ihm ihb =>
    cases hlike with
    | ternary _ ha hb hc => exact .indEq (ih hΘ ha hγ) (ihm hΘ hb hγ) (ihb hΘ hc hγ)
  | whichNat _ _ _ _ hw ih ihty ihb ihs =>
    cases hlike with
    | quaternary _ ha hb hc hd =>
      exact .whichNat (ih hΘ ha hγ) (ihty hΘ hb hγ) (ihb hΘ hc hγ) (ihs hΘ hd hγ) hw
  | iterNat _ _ _ _ hw ih ihty ihb ihs =>
    cases hlike with
    | quaternary _ ha hb hc hd =>
      exact .iterNat (ih hΘ ha hγ) (ihty hΘ hb hγ) (ihb hΘ hc hγ) (ihs hΘ hd hγ) hw
  | recNat _ _ _ _ hw ih ihty ihb ihs =>
    cases hlike with
    | quaternary _ ha hb hc hd =>
      exact .recNat (ih hΘ ha hγ) (ihty hΘ hb hγ) (ihb hΘ hc hγ) (ihs hΘ hd hγ) hw
  | recList _ _ _ _ hw ih ihty ihb ihs =>
    cases hlike with
    | quaternary _ ha hb hc hd =>
      exact .recList (ih hΘ ha hγ) (ihty hΘ hb hγ) (ihb hΘ hc hγ) (ihs hΘ hd hγ) hw
  | indNat _ _ hP _ _ hw ih ihm ihb ihs =>
    cases hlike with
    | quaternary _ ha hb hc hd =>
      exact .indNat (ih hΘ ha hγ) (ihm hΘ hb hγ) hP (ihb hΘ hc hγ) (ihs hΘ hd hγ) hw
  | indList _ _ hP _ _ hw ih ihm ihb ihs =>
    cases hlike with
    | quaternary _ ha hb hc hd =>
      exact .indList (ih hΘ ha hγ) (ihm hΘ hb hγ) hP (ihb hΘ hc hγ) (ihs hΘ hd hγ) hw
  | indEither _ _ hP _ _ hw ih ihm ihl ihr =>
    cases hlike with
    | quaternary _ ha hb hc hd =>
      exact .indEither (ih hΘ ha hγ) (ihm hΘ hb hγ) hP (ihl hΘ hc hγ) (ihr hΘ hd hγ) hw
  | indVec _ _ _ hP _ _ hw ihl ih ihm ihb ihs =>
    cases hlike with
    | indVec hl ht hm hb hs =>
      exact .indVec (ihl hΘ hl hγ) (ih hΘ ht hγ) (ihm hΘ hm hγ) hP (ihb hΘ hb hγ)
        (ihs hΘ hs hγ) hw

namespace Derives

variable {Θ : Instance} {t t' : Core} {S S' : Code} {w w' : Value}

theorem sound_self {M : Meaning} (h : Derives Θ t M) (hΘ : Θ.Valid) : M.Holds Θ.environment t :=
  h.sound hΘ (.refl (fun _ => rfl) t) hΘ.covers

/-- Elements whose terms are equal up to bound names are equal. -/
theorem relates_of_like (h : Derives Θ t (.element w S)) (h' : Derives Θ t' (.element w' S))
    (hΘ : Θ.Valid) (hlike : t.Like Eq t') : S.Relates w w' := by
  obtain ⟨hS, v, ht, hv⟩ := h.sound hΘ hlike hΘ.covers
  obtain ⟨-, v', ht', hv'⟩ := h'.sound_self hΘ
  obtain rfl := Settles.unique ht ht'
  exact hS.equivalence.trans (hS.equivalence.symm hv) hv'

/-- Types whose terms are equal up to bound names are equal. -/
theorem agree_of_like (h : Derives Θ t (.type S)) (h' : Derives Θ t' (.type S')) (hΘ : Θ.Valid)
    (hlike : t.Like Eq t') : S.Agree S' := by
  obtain ⟨T, ht, hT⟩ := h.sound hΘ hlike hΘ.covers
  obtain ⟨T', ht', hT'⟩ := h'.sound_self hΘ
  obtain rfl := Settles.unique ht ht'
  exact ⟨T, hT, hT'⟩

theorem relates (h : Derives Θ t (.element w S)) (hΘ : Θ.Valid) : S.Relates w w :=
  (h.sound_self hΘ).relates

theorem denoted (h : Derives Θ t (.element w S)) (hΘ : Θ.Valid) : S.Denoted :=
  (h.sound_self hΘ).1

theorem type_denoted (h : Derives Θ t (.type S)) (hΘ : Θ.Valid) : S.Denoted :=
  (h.sound_self hΘ).denoted

/-- A function whose body stands for an element at every argument. The closure of the body is
such a function. -/
theorem exists_lam {x : String} {body : Core} {A : Code} {F : Value → Code} (hΘ : Θ.Valid)
    (hS : (Code.quant .pi A F).Denoted)
    (hbody : ∀ a, A.Relates a a → ∃ r, Derives ((x, A, a) :: Θ) body (.element r (F a))) :
    ∃ f, Derives Θ (.lam x body) (.element f (.quant .pi A F)) := by
  have hA := hS.base.equivalence
  have heval : ∀ a b r, A.Relates b a → Derives ((x, A, a) :: Θ) body (.element r (F a)) →
      ∃ v, body.Evaluates ((x, b) :: Θ.environment) v ∧ (F a).Relates v r := by
    intro a b r hab h
    have hself := Core.Like.refl (NameRelation.push_self (σ := Eq) x fun _ => rfl) body
    exact (h.sound (hΘ.cons x hS.base (hA.right hab)) hself (hΘ.covers.cons x x hab)).2
  have hresult : ∀ a, ∃ v, A.Relates a a →
      body.Evaluates ((x, a) :: Θ.environment) v ∧
      Derives ((x, A, a) :: Θ) body (.element v (F a)) := by
    intro a
    by_cases ha : A.Relates a a
    · obtain ⟨r, hr⟩ := hbody a ha
      obtain ⟨v, hv, hvr⟩ := heval a a r ha hr
      have hE := (hS.family ha).left.equivalence
      exact ⟨v, fun _ => ⟨hv, hr.rel (hE.symm hvr)⟩⟩
    · exact ⟨a, fun h => absurd h ha⟩
  obtain ⟨result, hresult⟩ := Classical.skolem.1 hresult
  refine ⟨.lam x (.captured Θ.environment x body), .lam hS (fun a b hab => ?_) (r := result)
    (fun a ha => .lam (.captured (hresult a ha).1)) fun a ha => (hresult a ha).2⟩
  obtain ⟨hv, hderives⟩ := hresult a (hA.left hab)
  obtain ⟨v, hv', hrelates⟩ := heval a b _ (hA.symm hab) hderives
  exact ⟨_, v, .lam (.captured hv), .lam (.captured hv'),
    (hS.family hab).left.equivalence.symm hrelates⟩

end Derives

end PieChecker
