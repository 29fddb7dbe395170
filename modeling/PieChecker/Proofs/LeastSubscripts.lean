import Mathlib.Data.List.DropRight
import PieChecker.Proofs.FreshNames
import PieChecker.Proofs.Printing.RoundTrip

set_option autoImplicit false

/-!
# Fresh names have the least free subscript

A name is a stem and a number in subscript digits, where the number may be missing and may have
leading zeros. If the name is taken, then a fresh name has the same stem and the least larger
number that makes a free name, without leading zeros. There is no fresh name exactly when that
number does not fit 64 bits.

What can be written as a name remains so: subscript digits may stand anywhere in a name, and no
keyword ends in one.
-/

namespace PieChecker.Name

/-! ## Stem and number -/

/-- The name consists of a stem that does not end in a subscript digit, and of subscript
digits. -/
structure SplitsInto (x : String) (stem digits : List Char) : Prop where
  toList_eq : x.toList = stem ++ digits
  stem_plain : stem.getLast?.any isSubscriptDigit = false
  all_digits : ∀ c ∈ digits, isSubscriptDigit c = true

/-- The number that subscript digits spell, the most significant one first. -/
def spelled (digits : List Char) : Nat :=
  Nat.ofDigits 10 (digits.map fun c => c.toNat - '₀'.toNat).reverse

/-- The subscript digits at the end of a name. -/
def trailingDigits (x : String) : List Char := x.toList.rtakeWhile isSubscriptDigit

theorem subscript_eq (x : String) :
    subscript x = min (spelled (trailingDigits x)) (2 ^ 64 - 1) := by
  rw [spelled, ← Surface.Reader.foldl_eq_ofDigits]
  rfl

theorem splitsInto_stem (x : String) : SplitsInto x (stem x) (trailingDigits x) where
  toList_eq := List.rdropWhile_append_rtakeWhile.symm
  stem_plain := by
    rw [stem, List.getLast?_reverse, Option.any_eq_false]
    intro c hc
    have hhead := List.head?_dropWhile_not isSubscriptDigit x.toList.reverse
    rw [hc] at hhead
    simpa using hhead
  all_digits _ hc := List.mem_rtakeWhile_imp hc

/-- There is only one way to split a name. -/
theorem splitsInto_iff {x : String} {s d : List Char} : SplitsInto x s d ↔ s = stem x ∧
    d = trailingDigits x := by
  constructor
  · rintro ⟨htext, hplain, hall⟩
    have hdigits : d = trailingDigits x := by
      rw [trailingDigits, List.rtakeWhile, htext, List.reverse_append,
        List.takeWhile_append_of_pos, takeWhile_reverse_eq_nil hplain, List.append_nil,
        List.reverse_reverse]
      simpa using hall
    have hsplit := (splitsInto_stem x).toList_eq
    rw [htext, hdigits] at hsplit
    exact ⟨List.append_cancel_right hsplit, hdigits⟩
  · rintro ⟨rfl, rfl⟩
    exact splitsInto_stem x

/-! ## Subscript digits in names -/

theorem isSubscriptDigit_of_mem {n : Nat} {c : Char} (hc : c ∈ subscriptDigits n) :
    isSubscriptDigit c = true := by
  obtain ⟨d, hd, rfl⟩ := List.mem_map.1 hc
  have hd := Nat.isDigit_of_mem_toDigits (by decide) (by decide) hd
  rw [Char.isDigit_iff_toNat] at hd
  have hall : ∀ k ∈ List.range' 48 10,
      isSubscriptDigit (Char.ofNat ('₀'.toNat + (k - '0'.toNat))) = true := by decide
  have hle : 48 ≤ d.toNat := hd.1
  have hge : d.toNat ≤ 57 := hd.2
  exact hall d.toNat (by simp; omega)

theorem subscriptDigits_ne_nil (n : Nat) : subscriptDigits n ≠ [] := by
  rw [subscriptDigits, ne_eq, List.map_eq_nil_iff]
  exact Nat.toDigits_ne_nil

/-- A subscript digit can stand anywhere in a name. -/
theorem unobtrusive_of_isSubscriptDigit {c : Char} (h : isSubscriptDigit c = true) :
    Lexer.isDelimiter c = false ∧ Lexer.isDigit c = false ∧ Lexer.isReserved c = false := by
  simp only [isSubscriptDigit, Bool.and_eq_true, decide_eq_true_eq] at h
  have hle : 8320 ≤ c.toNat := h.1
  have hge : c.toNat ≤ 8329 := h.2
  have hall : ∀ k ∈ List.range' 8320 10, Lexer.isDelimiter (Char.ofNat k) = false ∧
      Lexer.isDigit (Char.ofNat k) = false ∧ Lexer.isReserved (Char.ofNat k) = false := by
        decide
  rw [← Char.ofNat_toNat c]
  exact hall c.toNat (by simp; omega)

/-- No keyword ends in a number. -/
theorem append_subscriptDigits_not_mem (stem : List Char) (n : Nat) (k : Keyword) :
    String.ofList (stem ++ subscriptDigits n) ∉ k.spellings := by
  intro h
  have hall : ∀ k ∈ Keyword.all, ∀ text ∈ k.spellings, IsPlain text := by decide +kernel
  have hplain := hall k k.mem_all _ h
  rw [IsPlain, String.toList_ofList,
    List.getLast?_append_of_ne_nil _ (subscriptDigits_ne_nil n),
    List.getLast?_eq_some_getLast (subscriptDigits_ne_nil n), Option.any_some] at hplain
  cases (isSubscriptDigit_of_mem (List.getLast_mem _)).symm.trans hplain

/-- A name remains a name if the digits at its end are replaced. -/
theorem hasToken_append_subscriptDigits {cs stem digits : List Char}
    (h : Lexer.HasToken cs .name) (hcs : cs = stem ++ digits) (n : Nat) :
    Lexer.HasToken (stem ++ subscriptDigits n) .name := by
  have hunobtrusive := fun c hc =>
    unobtrusive_of_isSubscriptDigit (@isSubscriptDigit_of_mem n c hc)
  have hstem : ∀ c ∈ stem, c ∈ cs := fun c hc => hcs ▸ List.mem_append_left digits hc
  cases h with
  | word hword htoken =>
    cases htoken with
    | name hk hstart hreserved =>
      refine .word ⟨by simp [subscriptDigits_ne_nil], ?_⟩
        (.name (append_subscriptDigits_not_mem stem n) ?_ ?_)
      · exact List.forall_mem_append.2
          ⟨fun c hc => hword.2 c (hstem c hc), fun c hc => (hunobtrusive c hc).1⟩
      · intro c hc
        -- Without a stem the name starts with a digit of the new number, and else as it did
        -- before.
        cases stem with
        | nil => exact (hunobtrusive c (List.mem_of_head? hc)).2.1
        | cons d stem =>
          rw [hcs] at hstart
          exact hstart c hc
      · exact List.forall_mem_append.2
          ⟨fun c hc => hreserved c (hstem c hc), fun c hc => (hunobtrusive c hc).2.2⟩

theorem isName_subscripted {x : String} (h : Core.IsName x) (n : Nat) :
    Core.IsName (subscripted (stem x) n) := by
  have htoken := hasToken_append_subscriptDigits h.hasToken (splitsInto_stem x).toList_eq n
  have hword := Surface.isWord_of_hasToken htoken (.inl rfl)
  have hlex : lex (subscripted (stem x) n) = _ :=
    (Lexer.Phrase.word hword ⟨_, htoken⟩).lex (by simp [subscripted])
  exact ⟨_, hlex, Lexer.tokenOf_of_hasToken htoken⟩

/-! ## Fresh names -/

variable {avoid : List String} {x y : String}

/-- The subscripts run out exactly if all those that follow the name's own are taken. -/
theorem exists_stop_iff : (∃ stop, freshen avoid x = .error stop) ↔
    x ∈ avoid ∧ ∀ m, subscript x < m → m ≤ maxSubscript → subscripted (stem x) m ∈ avoid := by
  by_cases hx : x ∈ avoid
  · obtain ⟨m, hleast, -, hfreshen⟩ := exists_freshen_of_mem hx
    rw [hfreshen, and_iff_right hx, ← hleast.lt_iff]
    split
    case isTrue hle => exact ⟨nofun, fun hlt => (hlt.not_ge hle).elim⟩
    case isFalse hlt => exact ⟨fun _ => Nat.lt_of_not_le hlt, fun _ => ⟨_, rfl⟩⟩
  · rw [freshen_of_not_mem hx]
    exact ⟨nofun, fun h => (hx h.1).elim⟩

theorem isName_of_freshen (h : freshen avoid x = .ok y) (hname : Core.IsName x) :
    Core.IsName y := by
  by_cases hx : x ∈ avoid
  · obtain ⟨m, -, -, hfreshen⟩ := exists_freshen_of_mem hx
    rw [hfreshen] at h
    split at h
    · cases h
      exact isName_subscripted hname m
    · cases h
  · rw [freshen_of_not_mem hx] at h
    cases h
    exact hname

/-- A fresh name is the suggestion itself if that is free, and has the least free subscript
otherwise. In just one way the suggestion is a stem and then subscript digits. Let `n` be the
number that the digits spell, or `2 ^ 64 - 1` if that is less. If the suggestion is taken, then
there is a least `m` above `n` that makes a free name of the stem, and to find it takes at most
one candidate more than there are names to avoid. The fresh name has the subscript `m` if that
is at most `2 ^ 64 - 1`. There is none exactly if all names with subscripts from `n + 1` to
`2 ^ 64 - 1` are taken. A fresh name is not among those to avoid, and it can be written as a
name if the suggestion can. -/
theorem freshen_least (avoid : List String) (suggestion : String) :
    ∃ stem digits n, (∀ s d, SplitsInto suggestion s d ↔ s = stem ∧ d = digits) ∧
      n = min (spelled digits) (2 ^ 64 - 1) ∧
      (suggestion ∉ avoid → freshen avoid suggestion = .ok suggestion) ∧
      (suggestion ∈ avoid → ∃ m, IsLeastFree avoid stem n m ∧ m ≤ n + (avoid.length + 1) ∧
        freshen avoid suggestion = if m ≤
          2 ^ 64 - 1 then .ok (subscripted stem m) else Outcome.overflow) ∧
      ((∃ stop, freshen avoid suggestion = .error stop) ↔
        suggestion ∈ avoid ∧ ∀ m, n < m → m ≤ 2 ^ 64 - 1 → subscripted stem m ∈ avoid) ∧
      ∀ y, freshen avoid suggestion = .ok y → y ∉ avoid ∧
      (Core.IsName suggestion → Core.IsName y) := by
  refine ⟨stem suggestion, trailingDigits suggestion, subscript suggestion, fun _ _ =>
    splitsInto_iff, subscript_eq suggestion, freshen_of_not_mem, exists_freshen_of_mem,
    exists_stop_iff, fun y hy => ?_⟩
  exact ⟨freshen_not_mem hy, isName_of_freshen hy⟩

/-- The number after nine has two digits, and leading zeros are lost. -/
theorem freshen_least_carry :
    let avoid := ["x₀₉", "x₁₀"]
    SplitsInto "x₀₉" ['x'] ['₀', '₉'] ∧ "x₀₉" ∈ avoid ∧ Core.IsName "x₀₉" ∧
      (∃ m, IsLeastFree avoid ['x'] 9 m ∧ m ≤ 9 + 3 ∧
        freshen avoid "x₀₉" = if m ≤
          2 ^ 64 - 1 then .ok (subscripted ['x'] m) else Outcome.overflow) ∧
      freshen avoid "x₀₉" = .ok "x₁₁" ∧ "x₁₁" ∉ avoid ∧ Core.IsName "x₁₁" := by
  intro avoid
  have hsplit : SplitsInto "x₀₉" ['x'] ['₀', '₉'] :=
    ⟨by decide, by decide, List.forall_mem_cons.2 ⟨rfl, List.forall_mem_singleton.2 rfl⟩⟩
  have hmem : "x₀₉" ∈ avoid := by decide
  have hname : Core.IsName "x₀₉" := ⟨⟨.name, 0, "x₀₉"⟩, by decide +kernel, rfl⟩
  have hfreshen : freshen avoid "x₀₉" = .ok "x₁₁" := by decide
  obtain ⟨stem, digits, n, hunique, rfl, -, htaken, -, hresult⟩ := freshen_least avoid "x₀₉"
  obtain ⟨rfl, rfl⟩ := (hunique _ _).1 hsplit
  obtain ⟨hfree, hwritten⟩ := hresult "x₁₁" hfreshen
  exact ⟨hsplit, hmem, hname, htaken hmem, hfreshen, hfree, hwritten hname⟩

/-- No number follows the largest one. -/
example : freshen ["₁₈₄₄₆₇₄₄₀₇₃₇₀₉₅₅₁₆₁₅"] "₁₈₄₄₆₇₄₄₀₇₃₇₀₉₅₅₁₆₁₅" = Outcome.overflow := by
  decide

end PieChecker.Name
