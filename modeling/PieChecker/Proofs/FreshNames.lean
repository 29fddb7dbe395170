import Mathlib.Data.List.Nodup
import Mathlib.Data.List.Perm.Subperm
import Mathlib.Order.Nat
import PieChecker.Proofs.Simulation.ReadBack

set_option autoImplicit false

/-!
# Fresh names never run out

A name that is taken gives way to the one with the least free subscript above its own. The
search goes through the subscripts one after the other. Names with different subscripts are
different, so the names in use cannot take more candidates than there are of them, and the
search ends.

Subscripts are bounded, so a name can be without a free successor: the name itself may have the
largest subscript already, or all subscripts that follow its own may be taken. For a name that
does not end in subscript digits only the latter is possible, and it takes as many names in use
as there are subscripts.
-/

namespace PieChecker.Name

/-- The name does not end in a subscript digit. -/
def IsPlain (x : String) : Prop := x.toList.getLast?.any isSubscriptDigit = false

instance (x : String) : Decidable (IsPlain x) := inferInstanceAs (Decidable (_ = false))

/-- There are no subscript digits at the end of what does not end in one. -/
theorem takeWhile_reverse_eq_nil {cs : List Char}
    (h : cs.getLast?.any isSubscriptDigit = false) :
    cs.reverse.takeWhile isSubscriptDigit = [] := by
  rw [List.getLast?_eq_head?_reverse] at h
  cases hcs : cs.reverse with
  | nil => rfl
  | cons c cs =>
    rw [hcs, List.head?_cons, Option.any_some] at h
    rw [List.takeWhile_cons_of_neg (ne_true_of_eq_false h)]

theorem IsPlain.subscript_eq {x : String} (h : IsPlain x) : subscript x = 0 := by
  rw [subscript, takeWhile_reverse_eq_nil h]
  rfl

/-! ## Names with different subscripts are different -/

/-- A subscript digit spells the same number as the decimal digit that it was made of. -/
theorem toNat_subscriptDigit {c : Char} (hc : c.isDigit = true) :
    (Char.ofNat ('₀'.toNat + (c.toNat - '0'.toNat))).toNat - '₀'.toNat =
      c.toNat - '0'.toNat := by
  have hle : c.toNat ≤ '9'.toNat := by
    rw [Char.isDigit_iff_toNat] at hc
    exact hc.2
  have hvalid : ('₀'.toNat + (c.toNat - '0'.toNat)).isValidChar := by
    left
    have h₀ : '₀'.toNat = 8320 := rfl
    have h₉ : '9'.toNat = 57 := rfl
    omega
  have hofNat : (Char.ofNat ('₀'.toNat + (c.toNat - '0'.toNat))).toNat =
      '₀'.toNat + (c.toNat - '0'.toNat) := by
    rw [Char.ofNat, dif_pos hvalid]
    rfl
  rw [hofNat, Nat.add_sub_cancel_left]

/-- The subscript digits of a number spell that number. -/
theorem foldl_subscriptDigits (n : Nat) :
    (subscriptDigits n).foldl (fun m c => 10 * m + (c.toNat - '₀'.toNat)) 0 = n := by
  calc
    (subscriptDigits n).foldl (fun m c => 10 * m + (c.toNat - '₀'.toNat)) 0
      = (Nat.toDigits 10 n).foldl (fun m c => 10 * m + (c.toNat - '0'.toNat)) 0 := by
        rw [subscriptDigits, List.foldl_map]
        refine List.foldl_ext _ _ _ fun m c hc => ?_
        rw [toNat_subscriptDigit (Nat.isDigit_of_mem_toDigits (by decide) (by decide) hc)]
    _ = n := Nat.ofDigitChars_ten_toDigits

theorem subscripted_injective (stem : List Char) : Function.Injective (subscripted stem) := by
  intro n m h
  have hdigits : subscriptDigits n = subscriptDigits m :=
    List.append_cancel_left (String.ofList_injective h)
  rw [← foldl_subscriptDigits n, hdigits, foldl_subscriptDigits]

/-! ## The search finds the least free subscript -/

/-- The least subscript above `n` that makes a free name of the stem. -/
def IsLeastFree (avoid : List String) (stem : List Char) (n m : Nat) : Prop :=
  IsLeast {k | n < k ∧ subscripted stem k ∉ avoid} m

variable {avoid : List String} {stem : List Char} {candidates n m : Nat}

/-- The least free subscript is beyond a bound if all subscripts up to the bound are taken. -/
theorem IsLeastFree.lt_iff (h : IsLeastFree avoid stem n m) {bound : Nat} :
    bound < m ↔ ∀ k, n < k → k ≤ bound → subscripted stem k ∈ avoid := by
  constructor
  · intro hlt k hk hle
    by_contra hfree
    exact (h.2 ⟨hk, hfree⟩).not_gt (hle.trans_lt hlt)
  · intro htaken
    by_contra! hle
    exact h.1.2 (htaken m h.1.1 hle)

/-- If the first candidate is taken, then the least free subscript is one of the others. -/
theorem IsLeastFree.of_mem (h : IsLeastFree avoid stem n m)
    (htaken : subscripted stem (n + 1) ∈ avoid) :
    IsLeastFree avoid stem (n + 1) m := by
  obtain ⟨⟨hlt, hfree⟩, hleast⟩ := h
  have hne : m ≠ n + 1 := by
    rintro rfl
    exact hfree htaken
  refine ⟨⟨by omega, hfree⟩, ?_⟩
  rintro k ⟨hk, hkfree⟩
  exact hleast ⟨by omega, hkfree⟩

/-- With enough candidates the search ends at the least free subscript, or stops before it if
that is too large. -/
theorem search_of_isLeastFree (h : IsLeastFree avoid stem n m) (hm : m ≤ n + candidates) :
    search avoid stem candidates (n + 1) =
      if m ≤ maxSubscript then .ok (subscripted stem m) else Outcome.overflow := by
  -- The search goes on past a candidate that is taken, and the least free subscript is the same
  -- from there.
  induction candidates generalizing n with
  | zero =>
    have hlt := h.1.1
    omega
  | succ candidates ih =>
    have hlt := h.1.1
    rw [search]
    split
    case isTrue hn =>
      split
      case isTrue htaken => exact ih (h.of_mem htaken) (by omega)
      case isFalse hfree =>
        have hle := h.2 ⟨Nat.lt_succ_self n, hfree⟩
        obtain rfl : m = n + 1 := by omega
        rw [if_pos hn]
    case isFalse hn => rw [if_neg (by omega)]

/-- No list of names holds more candidates than its length. -/
theorem candidates_le_length (h : ∀ i < candidates, subscripted stem (n + i) ∈ avoid) :
    candidates ≤ avoid.length := by
  have hnodup : ((List.range candidates).map fun i => subscripted stem (n + i)).Nodup := by
    refine List.nodup_range.map fun i j hij => ?_
    exact Nat.add_left_cancel (subscripted_injective stem hij)
  have hsubset : ((List.range candidates).map fun i => subscripted stem (n + i)) ⊆ avoid := by
    intro y hy
    obtain ⟨i, hi, rfl⟩ := List.mem_map.1 hy
    exact h i (List.mem_range.1 hi)
  have hlength := (hnodup.subperm hsubset).length_le
  rw [List.length_map, List.length_range] at hlength
  exact hlength

/-- There is a least free subscript, and to find it takes at most one candidate more than there
are names to avoid. -/
theorem exists_isLeastFree (avoid : List String) (stem : List Char) (n : Nat) :
    ∃ m, IsLeastFree avoid stem n m ∧ m ≤ n + (avoid.length + 1) := by
  have hfree : ∃ k, k ≤ n + (avoid.length + 1) ∧ n < k ∧ subscripted stem k ∉ avoid := by
    by_contra! hnone
    have htaken : ∀ i < avoid.length + 1, subscripted stem (n + 1 + i) ∈ avoid :=
      fun i hi => hnone (n + 1 + i) (by omega) (by omega)
    have hle := candidates_le_length htaken
    omega
  obtain ⟨k, hle, hk⟩ := hfree
  have hexists : ∃ k, n < k ∧ subscripted stem k ∉ avoid := ⟨k, hk⟩
  exact ⟨Nat.find hexists, Nat.isLeast_find hexists, (Nat.find_min' hexists hk).trans hle⟩

/-- A name that is taken gives way to the one with the least free subscript. -/
theorem exists_freshen_of_mem {x : String} (hx : x ∈ avoid) :
    ∃ m, IsLeastFree avoid (Name.stem x) (subscript x) m ∧
      m ≤ subscript x + (avoid.length + 1) ∧
      freshen avoid x = if m ≤ maxSubscript then .ok (subscripted (Name.stem x) m)
        else Outcome.overflow := by
  obtain ⟨m, hleast, hle⟩ := exists_isLeastFree avoid (Name.stem x) (subscript x)
  refine ⟨m, hleast, hle, ?_⟩
  rw [freshen, if_pos hx, search_of_isLeastFree hleast hle]

theorem freshen_of_not_mem {x : String} (hx : x ∉ avoid) : freshen avoid x = .ok x := if_neg hx

/-- A name that does not end in a subscript digit has a free successor, if there are fewer names
in use than subscripts. -/
theorem IsPlain.exists_freshen {x : String} (hx : IsPlain x)
    (havoid : avoid.length < maxSubscript) :
    ∃ y, freshen avoid x = .ok y := by
  by_cases hmem : x ∈ avoid
  · obtain ⟨m, -, hle, hfreshen⟩ := exists_freshen_of_mem hmem
    rw [hx.subscript_eq] at hle
    rw [if_pos (by omega)] at hfreshen
    exact ⟨_, hfreshen⟩
  · exact ⟨x, freshen_of_not_mem hmem⟩

end PieChecker.Name
