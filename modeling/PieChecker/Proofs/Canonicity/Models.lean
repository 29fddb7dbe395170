import PieChecker.Proofs.Canonicity.Evaluation
import PieChecker.Proofs.Postcondition

set_option autoImplicit false

/-!
# Instances of contexts

An instance of a context gives closed values to all names in scope. The variables among them
form the world; the other names are defined, and their values in the context contain no
variables but those of the world. In an instance of its context, a comparison that succeeds
shows that the values represent equal elements.
-/

namespace PieChecker

/-- An instance of a context: the world of its variables, and closed values of all names in
scope. -/
structure Context.Models (Γ : Context) (W Θ : Instance) : Prop where
  valid : Θ.Valid
  sub : W.Sub Θ
  named : Θ.NamedIn Γ.names
  environment : Θ.RepresentedBy W Γ.environment
  types : ∀ x ty, Γ.lookupType x = .ok ty → ∃ S c, Θ.lookup x = some (S, c) ∧
    S.RepresentsType W ty

namespace Context.Models

variable {Γ : Context} {W Θ : Instance} {E : Engine} {A C C' : Code} {M : Meaning}
  {a c c' v v' ty ty' : Value}
variable {t : Core} {x : String}

theorem evaluate (h : Γ.Models W Θ) (ht : Derives Θ t M) (hv : Γ.evaluate E t = .ok v) :
    M.Represented W v :=
  ht.represents h.valid h.environment hv

theorem readBackType (h : Γ.Models W Θ) (hC : C.Denoted) (hty : C.RepresentsType W ty)
    (ht : Γ.readBackType E ty = .ok t) : Derives Θ t (.type C) :=
  hty.reify hC h.sub h.named ht

theorem readBack (h : Γ.Models W Θ) (hv : C.Keeps W ty v c) (ht : Γ.readBack E ty v = .ok t) :
    Derives Θ t (.element c C) :=
  hv.reify h.sub h.named ht

/-- Types that compare as the same are types with the same elements. -/
theorem sameType (h : Γ.Models W Θ) (hC : C.Denoted) (hC' : C'.Denoted)
    (hty : C.RepresentsType W ty) (hty' : C'.RepresentsType W ty') :
    Yields (fun _ => C.Agree C') (Γ.sameType E ty ty') := by
  refine (Yields.lift _).bind fun t ht => (Yields.lift _).bind fun t' ht' => ?_
  split
  · rename_i halpha
    have hlike := Core.Like.of_alphaEquivalentUnder (σ := Eq)
      (fun x y h => by simpa [Core.sameVariable] using h) halpha
    exact .of_ok ((h.readBackType hC hty ht).agree_of_like (h.readBackType hC' hty' ht')
      h.valid hlike)
  · exact True.intro

/-- Values that compare as the same represent equal elements. -/
theorem convert (h : Γ.Models W Θ) (hv : C.Keeps W ty v c) (hv' : C.Keeps W ty v' c') :
    Yields (fun _ => C.Relates c c') (Γ.convert E ty v v') := by
  refine (Yields.lift _).bind fun t ht => (Yields.lift _).bind fun t' ht' => ?_
  split
  · rename_i halpha
    have hlike := Core.Like.of_alphaEquivalentUnder (σ := Eq)
      (fun x y h => by simpa [Core.sameVariable] using h) halpha
    exact .of_ok ((h.readBack hv ht).relates_of_like (h.readBack hv' ht') h.valid hlike)
  · exact (Yields.lift _).bind fun _ _ => True.intro

/-! ## Growing contexts -/

theorem lookupType_of_cons {Γ Γ' : Context} {b : Binding} {y : String}
    (hΓ' : Γ'.bindings = (x, b) :: Γ.bindings) (h : Γ'.lookupType y = .ok ty) :
    (y = x ∧ b.isClaim = false ∧ ty = b.ty) ∨
      ((y ≠ x ∨ b.isClaim = true) ∧ Γ.lookupType y = .ok ty) := by
  rw [Context.lookupType, hΓ', List.find?_cons] at h
  by_cases hx : x = y <;> cases hb : b.isClaim
  · simp [hx, hb] at h
    exact .inl ⟨hx.symm, rfl, h.symm⟩
  · simp [hb] at h
    exact .inr ⟨.inr rfl, h⟩
  · simp [hx] at h
    exact .inr ⟨.inl (Ne.symm hx), h⟩
  · simp [hb] at h
    exact .inr ⟨.inr rfl, h⟩

/-- A variable may be given any element of its type. -/
theorem extendFree (h : Γ.Models W Θ) (hx : x ∉ Γ.names) (hA : A.Denoted)
    (hty : A.RepresentsType W ty) (ha : A.Relates a a) :
    (Γ.extendFree x ty).Models ((x, A, a) :: W) ((x, A, a) :: Θ) where
  valid := h.valid.cons x hA ha
  sub := h.sub.cons x (A, a)
  named := h.named.cons x (A, a)
  environment := by
    have hfresh := (h.sub.namedIn h.named).lookup_eq_none hx
    exact (h.environment.mono (Instance.sub_cons hfresh)).cons x
      (Code.represents_var A.adequate hA hty ha hfresh)
  types y T hT := by
    have hsub := Instance.sub_cons (e := (A, a)) ((h.sub.namedIn h.named).lookup_eq_none hx)
    obtain ⟨rfl, -, rfl⟩ | ⟨hy, hT⟩ := lookupType_of_cons (Γ := Γ) rfl hT
    · exact ⟨A, a, List.lookup_cons_self, hty.mono hsub⟩
    · obtain ⟨S, c, hc, hS⟩ := h.types y T hT
      have hyx : y ≠ x := hy.resolve_right nofun
      exact ⟨S, c, by rw [List.lookup_cons, beq_eq_false_iff_ne.2 hyx, hc], hS.mono hsub⟩

/-- A claimed name is not in scope yet. -/
theorem claim (h : Γ.Models W Θ) (x : String) (ty : Value) : (Γ.claim x ty).Models W Θ where
  valid := h.valid
  sub := h.sub
  named y e hy := List.mem_cons_of_mem x (h.named y e hy)
  environment := h.environment
  types y T hT := by
    obtain ⟨-, hclaim, -⟩ | ⟨-, hT⟩ := lookupType_of_cons (Γ := Γ) rfl hT
    · cases hclaim
    · exact h.types y T hT

/-- A definition in a context without variables. -/
theorem define (h : Γ.Models [] Θ) (x : String) (hA : A.Denoted) (hty : A.RepresentsType [] ty)
    (hv : A.Represents [] v a) : (Γ.define x ty v).Models [] ((x, A, a) :: Θ) where
  valid := h.valid.cons x hA hv.relates
  sub := nofun
  named := h.named.cons x (A, a)
  environment := h.environment.cons x hv
  types y T hT := by
    obtain ⟨rfl, -, rfl⟩ | ⟨hy, hT⟩ := lookupType_of_cons (Γ := Γ) rfl hT
    · exact ⟨A, a, List.lookup_cons_self, hty⟩
    · obtain ⟨S, c, hc, hS⟩ := h.types y T hT
      have hyx : y ≠ x := hy.resolve_right nofun
      exact ⟨S, c, by rw [List.lookup_cons, beq_eq_false_iff_ne.2 hyx, hc], hS⟩

theorem empty : Context.empty.Models [] [] where
  valid := nofun
  sub := nofun
  named := nofun
  environment := nofun
  types := nofun

end Context.Models

end PieChecker
