import PieChecker.Proofs.Canonicity.Derivation
import PieChecker.Value.ReadBack

set_option autoImplicit false

/-!
# Normal forms without variables

What read-back returns at a type either is made by a constructor of that type, or it waits for a
variable or for an unfinished part. In the instance without names no term waits, so there the
constructors remain. They are listed by `Core.HasCanonicalForm`; the list has none for `Absurd`.
-/

namespace PieChecker

namespace Core

/-- Is a type former outermost? -/
def isFormer : Core → Bool
  | univ | nat | const .atom | const .trivial | absurd => true
  | quant _ _ _ _ => true
  | unary .list _ | binary .vec _ _ | binary .either _ _ | ternary .equal _ _ _ => true
  | _ => false

/-- Is a variable, an unfinished part, an annotation or an eliminator outermost? -/
def isElimination : Core → Bool
  | var _ | todo _ _ => true
  | unary o _ => o ∈ [.car, .cdr, .symm, .head, .tail]
  | binary o _ _ => o ∈ [.the, .apply, .indAbsurd, .trans]
  | ternary o _ _ _ => o ∈ [.replace, .cong, .indEq]
  | quaternary _ _ _ _ _ | indVec _ _ _ _ _ => true
  | _ => false

/-- A finite chain of an operator that ends in a constant. -/
inductive IsChain (o : Core.Binary) (c : Const) : Core → Prop where
  | nil : IsChain o c (.const c)
  | cons {head tail : Core} (h : IsChain o c tail) : IsChain o c (.binary o head tail)

/-- Is the term made by a constructor of the type? -/
def HasCanonicalForm : (ty term : Core) → Prop
  | univ, t => t.isFormer = true
  | nat, t => ∃ n, t = numeral n
  | const .atom, t => ∃ a, t = quote a
  | const .trivial, t => t = const .sole
  | unary .list _, t => t.IsChain .listCons .nil
  | binary .vec _ _, t => t.IsChain .vecCons .vecnil
  | binary .either _ _, t => (∃ a, t = unary .left a) ∨ ∃ b, t = unary .right b
  | ternary .equal _ _ _, t => ∃ p, t = unary .same p
  | sigma _ _ _, t => ∃ a d, t = binary .cons a d
  | pi _ _ _, t => ∃ x body, t = lam x body
  | _, _ => False

theorem isElimination_eq_false {ty t : Core} (h : ty.HasCanonicalForm t) :
    t.isElimination = false := by
  unfold HasCanonicalForm at h
  split at h
  · rw [isFormer.eq_def] at h
    split at h
    all_goals first | rfl | cases h
  · obtain ⟨n, rfl⟩ := h
    cases n <;> rfl
  · obtain ⟨a, rfl⟩ := h
    rfl
  · subst h
    rfl
  · cases h <;> rfl
  · cases h <;> rfl
  · obtain ⟨a, rfl⟩ | ⟨b, rfl⟩ := h <;> rfl
  · obtain ⟨p, rfl⟩ := h
    rfl
  · obtain ⟨a, d, rfl⟩ := h
    rfl
  · obtain ⟨x, body, rfl⟩ := h
    rfl
  · exact h.elim

/-- Does the term wait for a variable or an unfinished part? An elimination waits if its target
does, a chain of constructors if its end does. -/
def waits : Core → Bool
  | var _ | todo _ _ => true
  | unary .add1 t | unary .car t | unary .cdr t | unary .symm t | unary .head t
  | unary .tail t => t.waits
  | binary .the _ t | binary .apply t _ | binary .indAbsurd t _ => t.waits
  | binary .listCons _ t | binary .vecCons _ t => t.waits
  | binary .trans t t' => t.waits || t'.waits
  | ternary .replace t _ _ | ternary .cong t _ _ | ternary .indEq t _ _ => t.waits
  | quaternary _ t _ _ _ | indVec _ t _ _ _ => t.waits
  | _ => false

end Core

/-- In the instance without names, no term waits. -/
theorem Derives.waits_eq_false {t : Core} {M : Meaning} (h : Derives [] t M) :
    t.waits = false := by
  generalize hΘ : ([] : Instance) = Θ at h
  induction h with
  | var h =>
    subst hΘ
    cases h
  | el _ _ ih | small _ _ _ ih | conv _ _ ih | rel _ _ ih | ofPi _ _ _ ih => exact (ih hΘ :)
  | trans _ _ ih ih' => rw [Core.waits, ih hΘ, ih' hΘ, Bool.or_false]
  | the _ _ _ ih | listCons _ _ _ ih | vecCons _ _ _ ih => exact (ih hΘ :)
  | add1 _ ih | apply _ _ _ ih | car _ ih | cdr _ ih | head _ ih | tail _ ih | symm _ ih
  | cong _ _ _ ih
  | replace _ _ _ _ _ ih | indEq _ _ _ _ _ _ ih | whichNat _ _ _ _ _ ih | iterNat _ _ _ _ _ ih
  | recNat _ _ _ _ _ ih | recList _ _ _ _ _ ih | indNat _ _ _ _ _ _ ih | indList _ _ _ _ _ _ ih
  | indEither _ _ _ _ _ _ ih => exact (ih hΘ :)
  | indVec _ _ _ _ _ _ _ _ ih => exact (ih hΘ :)
  | _ => rfl

/-! ## Read-back -/

section ReadBack

variable {strategy : Strategy} {fuel : Nat} {names : List String} {ty u v : Value} {t T : Core}

/-- A stuck elimination is read back as a term that waits. -/
theorem Neutral.waits_readBack {stuck : Neutral}
    (h : stuck.readBack strategy fuel names = .ok t) : t.waits = true := by
  induction fuel generalizing stuck t with
  | zero => cases h
  | succ fuel ih =>
    cases stuck with
    | var x =>
      cases h
      rfl
    | todo span ty =>
      obtain ⟨_, -, ⟨⟩⟩ := bind_eq_ok_iff.1 h
      rfl
    | project o target =>
      obtain ⟨_, ht, ⟨⟩⟩ := bind_eq_ok_iff.1 h
      cases o <;> exact (ih ht :)
    | apply function argument =>
      obtain ⟨_, ht, h⟩ := bind_eq_ok_iff.1 h
      obtain ⟨_, -, ⟨⟩⟩ := bind_eq_ok_iff.1 h
      exact (ih ht :)
    | recursor o target base step =>
      obtain ⟨ty, base⟩ := base
      obtain ⟨_, ht, h⟩ := bind_eq_ok_iff.1 h
      obtain ⟨_, -, h⟩ := bind_eq_ok_iff.1 h
      obtain ⟨_, -, h⟩ := bind_eq_ok_iff.1 h
      obtain ⟨_, -, ⟨⟩⟩ := bind_eq_ok_iff.1 h
      exact (ih ht :)
    | transport o target motive base =>
      obtain ⟨_, ht, h⟩ := bind_eq_ok_iff.1 h
      obtain ⟨_, -, h⟩ := bind_eq_ok_iff.1 h
      obtain ⟨_, -, ⟨⟩⟩ := bind_eq_ok_iff.1 h
      cases o <;> exact (ih ht :)
    | induct o target motive first second =>
      obtain ⟨_, ht, h⟩ := bind_eq_ok_iff.1 h
      obtain ⟨_, -, h⟩ := bind_eq_ok_iff.1 h
      obtain ⟨_, -, h⟩ := bind_eq_ok_iff.1 h
      obtain ⟨_, -, ⟨⟩⟩ := bind_eq_ok_iff.1 h
      exact (ih ht :)
    | indAbsurd target motive =>
      obtain ⟨_, ht, h⟩ := bind_eq_ok_iff.1 h
      obtain ⟨_, -, ⟨⟩⟩ := bind_eq_ok_iff.1 h
      exact (ih ht :)
    | cong target resultType function =>
      obtain ⟨_, ht, h⟩ := bind_eq_ok_iff.1 h
      obtain ⟨_, -, h⟩ := bind_eq_ok_iff.1 h
      obtain ⟨_, -, ⟨⟩⟩ := bind_eq_ok_iff.1 h
      exact (ih ht :)
    | transLeft left right =>
      obtain ⟨_, ht, h⟩ := bind_eq_ok_iff.1 h
      obtain ⟨_, -, ⟨⟩⟩ := bind_eq_ok_iff.1 h
      rw [Core.waits, ih ht, Bool.true_or]
    | transRight left right =>
      obtain ⟨_, -, h⟩ := bind_eq_ok_iff.1 h
      obtain ⟨_, ht, ⟨⟩⟩ := bind_eq_ok_iff.1 h
      rw [Core.waits, ih ht, Bool.or_true]
    | transBoth left right =>
      obtain ⟨_, ht, h⟩ := bind_eq_ok_iff.1 h
      obtain ⟨_, -, ⟨⟩⟩ := bind_eq_ok_iff.1 h
      rw [Core.waits, ih ht, Bool.true_or]
    | indVecTarget length target motive base step =>
      obtain ⟨_, -, h⟩ := bind_eq_ok_iff.1 h
      obtain ⟨_, ht, h⟩ := bind_eq_ok_iff.1 h
      obtain ⟨_, -, h⟩ := bind_eq_ok_iff.1 h
      obtain ⟨_, -, h⟩ := bind_eq_ok_iff.1 h
      obtain ⟨_, -, ⟨⟩⟩ := bind_eq_ok_iff.1 h
      exact (ih ht :)
    | indVecBoth length target motive base step =>
      obtain ⟨_, -, h⟩ := bind_eq_ok_iff.1 h
      obtain ⟨_, ht, h⟩ := bind_eq_ok_iff.1 h
      obtain ⟨_, -, h⟩ := bind_eq_ok_iff.1 h
      obtain ⟨_, -, h⟩ := bind_eq_ok_iff.1 h
      obtain ⟨_, -, ⟨⟩⟩ := bind_eq_ok_iff.1 h
      exact (ih ht :)

theorem Neutral.not_waits_readBack {stuck : Neutral}
    (h : stuck.readBack strategy fuel names = .ok t) :
    ¬ t.waits = false := by
  rw [waits_readBack h]
  exact nofun

namespace Value

/-- To read a value back, its type is forced first. -/
theorem readBack_of_now (h : ty.now = .ok u) (hu : u.now = .ok u) :
    ty.readBack strategy fuel names v = u.readBack strategy fuel names v := by
  cases fuel with
  | zero => rfl
  | succ fuel => rw [readBack, readBack, h, hu]

theorem isFormer_readBackType (h : ty.readBackType strategy fuel names = .ok T)
    (hT : T.waits = false) :
    T.isFormer = true := by
  cases fuel with
  | zero => cases h
  | succ fuel =>
    obtain ⟨u, -, h⟩ := bind_eq_ok_iff.1 h
    split at h
    · cases h
      rfl
    · cases h
      rfl
    · cases h
      rfl
    · cases h
      rfl
    · cases h
      rfl
    · obtain ⟨_, -, h⟩ := bind_eq_ok_iff.1 h
      obtain ⟨_, -, h⟩ := bind_eq_ok_iff.1 h
      obtain ⟨_, -, h⟩ := bind_eq_ok_iff.1 h
      obtain ⟨_, -, ⟨⟩⟩ := bind_eq_ok_iff.1 h
      rfl
    · obtain ⟨_, -, ⟨⟩⟩ := bind_eq_ok_iff.1 h
      rfl
    · obtain ⟨_, -, h⟩ := bind_eq_ok_iff.1 h
      obtain ⟨_, -, h⟩ := bind_eq_ok_iff.1 h
      obtain ⟨_, -, ⟨⟩⟩ := bind_eq_ok_iff.1 h
      rfl
    · obtain ⟨_, -, h⟩ := bind_eq_ok_iff.1 h
      obtain ⟨_, -, ⟨⟩⟩ := bind_eq_ok_iff.1 h
      rfl
    · obtain ⟨_, -, h⟩ := bind_eq_ok_iff.1 h
      obtain ⟨_, -, ⟨⟩⟩ := bind_eq_ok_iff.1 h
      rfl
    · exact (Neutral.not_waits_readBack h hT).elim
    · cases h

/-- A number without variables is read back as a numeral. -/
theorem exists_numeral_of_readBack (h : Value.nat.readBack strategy fuel names v = .ok t)
    (ht : t.waits = false) :
    ∃ n, t = .numeral n := by
  induction fuel generalizing v t with
  | zero => cases h
  | succ fuel ih =>
    obtain ⟨_, ⟨⟩, h⟩ := bind_eq_ok_iff.1 h
    obtain ⟨u, -, h⟩ := bind_eq_ok_iff.1 h
    cases u with
    | const c =>
      cases c with
      | zero =>
        cases h
        exact ⟨0, rfl⟩
      | _ => cases h
    | unary o p =>
      cases o with
      | add1 =>
        obtain ⟨t, hp, ⟨⟩⟩ := bind_eq_ok_iff.1 h
        obtain ⟨n, rfl⟩ := ih hp ht
        exact ⟨n + 1, rfl⟩
      | _ => cases h
    | neutral ty stuck => exact (Neutral.not_waits_readBack h ht).elim
    | _ => cases h

/-- A list without variables is read back as a chain. -/
theorem isChain_of_readBack_list {entry : Value}
    (h : (Value.list entry).readBack strategy fuel names v = .ok t) (ht : t.waits = false) :
    t.IsChain .listCons .nil := by
  induction fuel generalizing v t with
  | zero => cases h
  | succ fuel ih =>
    obtain ⟨_, ⟨⟩, h⟩ := bind_eq_ok_iff.1 h
    obtain ⟨u, -, h⟩ := bind_eq_ok_iff.1 h
    cases u with
    | const c =>
      cases c with
      | nil =>
        cases h
        exact .nil
      | _ => cases h
    | binary o a as =>
      cases o with
      | listCons =>
        obtain ⟨_, -, h⟩ := bind_eq_ok_iff.1 h
        obtain ⟨_, has, ⟨⟩⟩ := bind_eq_ok_iff.1 h
        exact .cons (ih has ht)
      | _ => cases h
    | neutral ty stuck => exact (Neutral.not_waits_readBack h ht).elim
    | _ => cases h

/-- A list of known length without variables is read back as a chain. -/
theorem isChain_of_readBack_vec {entry length : Value}
    (h : (Value.vec entry length).readBack strategy fuel names v = .ok t)
    (ht : t.waits = false) :
    t.IsChain .vecCons .vecnil := by
  induction fuel generalizing length v t with
  | zero => cases h
  | succ fuel ih =>
    obtain ⟨_, ⟨⟩, h⟩ := bind_eq_ok_iff.1 h
    obtain ⟨u, -, h⟩ := bind_eq_ok_iff.1 h
    cases u with
    | const c =>
      cases c with
      | vecnil =>
        cases h
        exact .nil
      | _ => cases h
    | binary o a as =>
      cases o with
      | vecCons =>
        obtain ⟨l, -, h⟩ := bind_eq_ok_iff.1 h
        split at h
        · obtain ⟨_, -, h⟩ := bind_eq_ok_iff.1 h
          obtain ⟨_, has, ⟨⟩⟩ := bind_eq_ok_iff.1 h
          exact .cons (ih has ht)
        · cases h
      | _ => cases h
    | neutral ty stuck => exact (Neutral.not_waits_readBack h ht).elim
    | _ => cases h

theorem isFormer_of_readBack_univ (h : Value.univ.readBack strategy fuel names v = .ok t)
    (ht : t.waits = false) :
    t.isFormer = true := by
  cases fuel with
  | zero => cases h
  | succ fuel =>
    obtain ⟨_, ⟨⟩, h⟩ := bind_eq_ok_iff.1 h
    obtain ⟨u, -, h⟩ := bind_eq_ok_iff.1 h
    exact isFormer_readBackType h ht

theorem exists_quote_of_readBack
    (h : (Value.const .atom).readBack strategy fuel names v = .ok t) (ht : t.waits = false) :
    ∃ a, t = .quote a := by
  cases fuel with
  | zero => cases h
  | succ fuel =>
    obtain ⟨_, ⟨⟩, h⟩ := bind_eq_ok_iff.1 h
    obtain ⟨u, -, h⟩ := bind_eq_ok_iff.1 h
    cases u with
    | quote a =>
      cases h
      exact ⟨a, rfl⟩
    | neutral ty stuck => exact (Neutral.not_waits_readBack h ht).elim
    | _ => cases h

theorem eq_sole_of_readBack (h : (Value.const .trivial).readBack strategy fuel names v =
    .ok t) : t = .const .sole := by
  cases fuel with
  | zero => cases h
  | succ fuel =>
    obtain ⟨_, ⟨⟩, h⟩ := bind_eq_ok_iff.1 h
    obtain ⟨u, -, ⟨⟩⟩ := bind_eq_ok_iff.1 h
    rfl

/-- Nothing of type `Absurd` is read back but what waits. -/
theorem waits_of_readBack_absurd
    (h : (Value.const .absurd).readBack strategy fuel names v = .ok t) :
    t.waits = true := by
  cases fuel with
  | zero => cases h
  | succ fuel =>
    obtain ⟨_, ⟨⟩, h⟩ := bind_eq_ok_iff.1 h
    obtain ⟨u, -, h⟩ := bind_eq_ok_iff.1 h
    cases u with
    | neutral ty stuck =>
      obtain ⟨_, hstuck, ⟨⟩⟩ := bind_eq_ok_iff.1 h
      exact (Neutral.waits_readBack hstuck :)
    | _ => cases h

theorem exists_injection_of_readBack {left right : Value}
    (h : (Value.either left right).readBack strategy fuel names v = .ok t)
    (ht : t.waits = false) :
    (∃ a, t = .unary .left a) ∨ ∃ b, t = .unary .right b := by
  cases fuel with
  | zero => cases h
  | succ fuel =>
    obtain ⟨_, ⟨⟩, h⟩ := bind_eq_ok_iff.1 h
    obtain ⟨u, -, h⟩ := bind_eq_ok_iff.1 h
    cases u with
    | unary o a =>
      cases o with
      | left =>
        obtain ⟨a, -, ⟨⟩⟩ := bind_eq_ok_iff.1 h
        exact Or.inl ⟨a, rfl⟩
      | right =>
        obtain ⟨b, -, ⟨⟩⟩ := bind_eq_ok_iff.1 h
        exact Or.inr ⟨b, rfl⟩
      | _ => cases h
    | neutral ty stuck => exact (Neutral.not_waits_readBack h ht).elim
    | _ => cases h

theorem exists_same_of_readBack {space lhs rhs : Value}
    (h : (Value.equal space lhs rhs).readBack strategy fuel names v = .ok t)
    (ht : t.waits = false) :
    ∃ p, t = .unary .same p := by
  cases fuel with
  | zero => cases h
  | succ fuel =>
    obtain ⟨_, ⟨⟩, h⟩ := bind_eq_ok_iff.1 h
    obtain ⟨u, -, h⟩ := bind_eq_ok_iff.1 h
    cases u with
    | unary o a =>
      cases o with
      | same =>
        obtain ⟨p, -, ⟨⟩⟩ := bind_eq_ok_iff.1 h
        exact ⟨p, rfl⟩
      | _ => cases h
    | neutral ty stuck => exact (Neutral.not_waits_readBack h ht).elim
    | _ => cases h

theorem exists_lam_of_readBack {x : String} {base : Value} {family : Closure}
    (h : (Value.pi x base family).readBack strategy fuel names v = .ok t) :
    ∃ y body, t = .lam y body := by
  cases fuel with
  | zero => cases h
  | succ fuel =>
    obtain ⟨_, ⟨⟩, h⟩ := bind_eq_ok_iff.1 h
    obtain ⟨_, -, h⟩ := bind_eq_ok_iff.1 h
    obtain ⟨y, -, h⟩ := bind_eq_ok_iff.1 h
    obtain ⟨_, -, h⟩ := bind_eq_ok_iff.1 h
    obtain ⟨_, -, h⟩ := bind_eq_ok_iff.1 h
    obtain ⟨body, -, ⟨⟩⟩ := bind_eq_ok_iff.1 h
    exact ⟨y, body, rfl⟩

theorem exists_cons_of_readBack {x : String} {base : Value} {family : Closure}
    (h : (Value.sigma x base family).readBack strategy fuel names v = .ok t) :
    ∃ a d, t = .binary .cons a d := by
  cases fuel with
  | zero => cases h
  | succ fuel =>
    obtain ⟨_, ⟨⟩, h⟩ := bind_eq_ok_iff.1 h
    obtain ⟨_, -, h⟩ := bind_eq_ok_iff.1 h
    obtain ⟨_, -, h⟩ := bind_eq_ok_iff.1 h
    obtain ⟨_, -, h⟩ := bind_eq_ok_iff.1 h
    obtain ⟨_, -, h⟩ := bind_eq_ok_iff.1 h
    obtain ⟨d, -, h⟩ := bind_eq_ok_iff.1 h
    obtain ⟨a, -, ⟨⟩⟩ := bind_eq_ok_iff.1 h
    exact ⟨a, d, rfl⟩

/-- What is read back at a type and does not wait is made by a constructor of the type. -/
theorem hasCanonicalForm_readBack {k : Nat} (hT : ty.readBackType strategy fuel names = .ok T)
    (hwaits : T.waits = false) (h : ty.readBack strategy k names v = .ok t)
    (ht : t.waits = false) :
    T.HasCanonicalForm t := by
  cases fuel with
  | zero => cases hT
  | succ fuel =>
    obtain ⟨u, hu, hT⟩ := bind_eq_ok_iff.1 hT
    split at hT
    · cases hT
      rw [readBack_of_now hu rfl] at h
      exact isFormer_of_readBack_univ h ht
    · cases hT
      rw [readBack_of_now hu rfl] at h
      exact exists_numeral_of_readBack h ht
    · cases hT
      rw [readBack_of_now hu rfl] at h
      exact exists_quote_of_readBack h ht
    · cases hT
      rw [readBack_of_now hu rfl] at h
      exact eq_sole_of_readBack h
    · rw [readBack_of_now hu rfl] at h
      cases ht.symm.trans (waits_of_readBack_absurd h)
    · rename_i q x base family
      obtain ⟨_, -, hT⟩ := bind_eq_ok_iff.1 hT
      obtain ⟨_, -, hT⟩ := bind_eq_ok_iff.1 hT
      obtain ⟨_, -, hT⟩ := bind_eq_ok_iff.1 hT
      obtain ⟨_, -, ⟨⟩⟩ := bind_eq_ok_iff.1 hT
      rw [readBack_of_now hu rfl] at h
      cases q with
      | pi => exact exists_lam_of_readBack h
      | sigma => exact exists_cons_of_readBack h
    · obtain ⟨_, -, ⟨⟩⟩ := bind_eq_ok_iff.1 hT
      rw [readBack_of_now hu rfl] at h
      exact isChain_of_readBack_list h ht
    · obtain ⟨_, -, hT⟩ := bind_eq_ok_iff.1 hT
      obtain ⟨_, -, hT⟩ := bind_eq_ok_iff.1 hT
      obtain ⟨_, -, ⟨⟩⟩ := bind_eq_ok_iff.1 hT
      rw [readBack_of_now hu rfl] at h
      exact exists_same_of_readBack h ht
    · obtain ⟨_, -, hT⟩ := bind_eq_ok_iff.1 hT
      obtain ⟨_, -, ⟨⟩⟩ := bind_eq_ok_iff.1 hT
      rw [readBack_of_now hu rfl] at h
      exact isChain_of_readBack_vec h ht
    · obtain ⟨_, -, hT⟩ := bind_eq_ok_iff.1 hT
      obtain ⟨_, -, ⟨⟩⟩ := bind_eq_ok_iff.1 hT
      rw [readBack_of_now hu rfl] at h
      exact exists_injection_of_readBack h ht
    · exact (Neutral.not_waits_readBack hT hwaits).elim
    · cases hT

end Value

end ReadBack

end PieChecker
