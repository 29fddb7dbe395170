import PieChecker.Proofs.Parsing.Patterns
import PieChecker.Proofs.Parsing.Programs

set_option autoImplicit false

/-!
# What may come next

A language of pattern words says what may come in a text from some place on. Each lexeme that is
read changes it: what may come then are the rests of the words whose first pattern the lexeme
fits. The patterns that can come next are the first ones of the words.

A reader is explained by such languages if, starting where the first one may come, it leaves off
where the second one may come, whichever lexemes it has read in between; and if, wherever it
refuses to read on, what it expected are exactly the patterns that can come next there.
-/

namespace PieChecker.Surface.Grammar

/-- A lexeme passes the test of a pattern. A number must fit 64 bits. -/
structure Fits (l : Lexeme) (π : Expectation) : Prop where
  met : π.isMetBy l.token = true
  small : l.token = .number → decimal l.text < 2 ^ 64

/-- What may come after one more lexeme. -/
def afterOne (K : Language Expectation) (l : Lexeme) : Language Expectation :=
  {w | ∃ π, Fits l π ∧ π :: w ∈ K}

/-- What may come after more lexemes. -/
def after (K : Language Expectation) (ts : List Lexeme) : Language Expectation :=
  ts.foldl afterOne K

/-- The patterns that can come next. -/
def next (K : Language Expectation) : Set Expectation := {π | ∃ w, π :: w ∈ K}

/-- A language with at least one word. -/
class Productive (K : Language Expectation) : Prop where
  exists_mem : ∃ w, w ∈ K

section Languages

variable {K L M N : Language Expectation} {l : Lexeme} {π σ : Expectation} {ts us : List Lexeme}
  {keywords : List Keyword} {rest : Keyword → Language Expectation} {w : List Expectation}

theorem after_nil (K : Language Expectation) : after K [] = K := rfl

theorem after_cons (K : Language Expectation) (l : Lexeme) (ts : List Lexeme) :
    after K (l :: ts) = after (afterOne K l) ts := rfl

theorem after_append (K : Language Expectation) (ts us : List Lexeme) :
    after K (ts ++ us) = after (after K ts) us :=
  List.foldl_append

/-- After lexemes come the rests of the words that start with patterns for these. -/
theorem mem_after : w ∈ after K ts ↔ ∃ ps, List.Forall₂ Fits ts ps ∧ ps ++ w ∈ K := by
  induction ts generalizing K with
  | nil => simp [after_nil]
  | cons l ts ih =>
    rw [after_cons, ih]
    constructor
    · rintro ⟨ps, hps, π, hπ, hw⟩
      exact ⟨π :: ps, .cons hπ hps, hw⟩
    · rintro ⟨_, hps, hw⟩
      cases hps with
      | cons hπ hps => exact ⟨_, hps, _, hπ, hw⟩

/-! ## First patterns -/

theorem cons_mem_pattern_mul : σ :: w ∈ pattern π * M ↔ σ = π ∧ w ∈ M := by
  simp [Language.mem_mul, mem_pattern, eq_comm, and_comm]

theorem cons_mem_keyed : σ :: w ∈ keyed keywords rest ↔ ∃ k ∈ keywords, σ = .keyword k ∧
    w ∈ rest k := by
  rw [mem_keyed]
  simp [and_comm]

theorem mem_next_add : π ∈ next (K + L) ↔ π ∈ next K ∨ π ∈ next L := by
  simp [next, Language.mem_add, exists_or]

theorem mem_next_zero : π ∉ next 0 := nofun

theorem mem_next_pattern_mul [hM : Productive M] : σ ∈ next (pattern π * M) ↔ σ = π := by
  simp [next, cons_mem_pattern_mul, hM.exists_mem]

theorem mem_next_keyed (hrest : ∀ k, Productive (rest k)) :
    π ∈ next (keyed keywords rest) ↔ ∃ k ∈ keywords, π = .keyword k := by
  constructor
  · rintro ⟨w, hw⟩
    obtain ⟨k, hk, rfl, -⟩ := cons_mem_keyed.1 hw
    exact ⟨k, hk, rfl⟩
  · rintro ⟨k, hk, rfl⟩
    obtain ⟨w, hw⟩ := (hrest k).exists_mem
    exact ⟨w, cons_mem_keyed.2 ⟨k, hk, rfl, hw⟩⟩

/-! ## One lexeme -/

theorem afterOne_add (K L : Language Expectation) (l : Lexeme) :
    afterOne (K + L) l = afterOne K l + afterOne L l := by
  ext w
  simp only [afterOne, Language.mem_add]
  constructor
  · rintro ⟨π, hπ, hw | hw⟩
    · exact .inl ⟨π, hπ, hw⟩
    · exact .inr ⟨π, hπ, hw⟩
  · rintro (⟨π, hπ, hw⟩ | ⟨π, hπ, hw⟩)
    · exact ⟨π, hπ, .inl hw⟩
    · exact ⟨π, hπ, .inr hw⟩

/-- Nothing may come after a lexeme that none of the first patterns accepts. -/
theorem afterOne_eq_zero (h : ∀ π ∈ next K, π.isMetBy l.token = false) : afterOne K l = 0 := by
  ext w
  constructor
  · rintro ⟨π, hπ, hw⟩
    exact (Bool.false_ne_true ((h π ⟨w, hw⟩).symm.trans hπ.met)).elim
  · nofun

theorem afterOne_pattern_mul (h : Fits l π) : afterOne (pattern π * M) l = M := by
  ext w
  constructor
  · rintro ⟨σ, -, hw⟩
    exact (cons_mem_pattern_mul.1 hw).2
  · intro hw
    exact ⟨π, h, cons_mem_pattern_mul.2 ⟨rfl, hw⟩⟩

theorem fits_keyword {k : Keyword} (hl : l.token = .keyword k) : Fits l (.keyword k) where
  met := by simp [hl, Expectation.isMetBy]
  small := by simp [hl]

theorem afterOne_keyed {k : Keyword} (hl : l.token = .keyword k) (hk : k ∈ keywords) :
    afterOne (keyed keywords rest) l = rest k := by
  ext w
  constructor
  · rintro ⟨σ, hσ, hw⟩
    obtain ⟨k', -, rfl, hw⟩ := cons_mem_keyed.1 hw
    have hmet := hσ.met
    simp only [hl, Expectation.isMetBy, decide_eq_true_eq] at hmet
    rwa [← hmet]
  · intro hw
    exact ⟨_, fits_keyword hl, cons_mem_keyed.2 ⟨k, hk, rfl, hw⟩⟩

/-! ## Languages with at least one word -/

instance : Productive (pattern π) := ⟨⟨[π], rfl⟩⟩

instance : Productive 1 := ⟨⟨[], rfl⟩⟩

instance [hK : Productive K] [hM : Productive M] : Productive (K * M) where
  exists_mem := by
    obtain ⟨w, hw⟩ := hK.exists_mem
    obtain ⟨w', hw'⟩ := hM.exists_mem
    exact ⟨w ++ w', Language.append_mem_mul hw hw'⟩

instance Productive.add_left [hK : Productive K] (L : Language Expectation) :
    Productive (K + L) :=
  ⟨hK.exists_mem.imp fun _ hw => .inl hw⟩

instance Productive.add_right (K : Language Expectation) [hL : Productive L] :
    Productive (K + L) :=
  ⟨hL.exists_mem.imp fun _ hw => .inr hw⟩

namespace Nonterminal

/-- There is something to write for every rule. -/
instance (n : Nonterminal) : Productive n.words := by
  have hexpression : Productive expression.words := by
    rw [words_expression, ← add_assoc, ← add_assoc]
    exact .add_right _
  have hblanks : Productive blanks.words :=
    ⟨⟨[], by rw [words_blanks]; exact Language.nil_mem_kstar _⟩⟩
  induction n with
  | blanks => exact hblanks
  | expression => exact hexpression
  | site => rw [words_site]; infer_instance
  | typedBinder => rw [words_typedBinder]; infer_instance
  | compound =>
    have hseparated : Productive (separated expression).words := by
      rw [words_separated]
      exact .add_left _
    rw [words_compound]
    exact .add_right _
  | topLevel => rw [words_topLevel]; exact .add_right _
  | program => rw [words_program]; exact .add_left _
  | loneExpression => rw [words_loneExpression]; infer_instance
  | separated item ih => rw [words_separated]; exact .add_left _

instance (count : Nat) : Productive (operandWords count) := by
  induction count with
  | zero => exact inferInstanceAs (Productive 1)
  | succ count ih =>
    rw [operandWords_succ]
    infer_instance

instance (item : Nonterminal) : Productive (groupWords item) := by
  unfold groupWords
  infer_instance

instance : Productive declarationWords := by
  unfold declarationWords
  infer_instance

instance (k : Keyword) : Productive (wordsAfter k) := by
  cases k with
  | const | todo => exact inferInstanceAs (Productive 1)
  | unary | binary | ternary | quaternary | indVec =>
    exact inferInstanceAs (Productive (operandWords _))
  | arrow => rw [wordsAfter_arrow]; infer_instance
  | quant q => rw [wordsAfter_quant]; infer_instance
  | lambda => rw [wordsAfter_lambda]; infer_instance
  | quote => rw [wordsAfter_quote]; infer_instance
  | opener o =>
    cases o with
    | claim => rw [wordsAfter_claim]; infer_instance
    | define => rw [wordsAfter_define]; infer_instance
    | checkSame => exact inferInstanceAs (Productive (operandWords 3))

end Nonterminal

/-! ## Blanks -/

open Nonterminal

/-- Blanks and then something else: it comes at once, or after one more blank. -/
theorem blanks_mul_eq (L : Language Expectation) :
    blanks.words * L = L + pattern .blank * (blanks.words * L) := by
  nth_rewrite 1 [words_blanks, ← Language.one_add_self_mul_kstar_eq_kstar, ← words_blanks]
  rw [add_mul, one_mul, mul_assoc]

theorem mem_next_blanks_mul [Productive L] : π ∈ next (blanks.words * L) ↔ π = .blank ∨
    π ∈ next L := by
  rw [blanks_mul_eq, mem_next_add, mem_next_pattern_mul, or_comm]

theorem isMetBy_blank (t : Token) : Expectation.blank.isMetBy t = true ↔ t = .blank := by
  cases t <;> simp [Expectation.isMetBy]

theorem eq_blank_of_isMetBy (h : π.isMetBy .blank = true) : π = .blank := by
  cases π <;> first | rfl | cases h

theorem fits_of_isMetBy (h : π.isMetBy l.token = true) (hπ : π ≠ .number) : Fits l π where
  met := h
  small hnumber := by
    rw [hnumber] at h
    cases π <;> first | exact (hπ rfl).elim | cases h

theorem afterOne_blanks_mul_of_ne (hl : l.token ≠ .blank) :
    afterOne (blanks.words * L) l = afterOne L l := by
  have hblank : afterOne (pattern .blank * (blanks.words * L)) l = 0 := by
    refine afterOne_eq_zero ?_
    rintro π ⟨w, hw⟩
    obtain ⟨rfl, -⟩ := cons_mem_pattern_mul.1 hw
    rwa [← Bool.not_eq_true, isMetBy_blank]
  rw [blanks_mul_eq, afterOne_add, hblank, add_zero]

/-- Blanks may come after blanks, if nothing else can start with a blank. -/
theorem after_blanks_mul (hL : .blank ∉ next L) {b : List Lexeme} (hb : Blanks b) :
    after (blanks.words * L) b = blanks.words * L := by
  induction b with
  | nil => rfl
  | cons l b ih =>
    obtain ⟨hl, hb⟩ := List.forall_mem_cons.1 hb
    have hL' : afterOne L l = 0 := by
      refine afterOne_eq_zero fun π hπ => ?_
      rw [← Bool.not_eq_true, hl]
      intro hmet
      rw [eq_blank_of_isMetBy hmet] at hπ
      exact hL hπ
    have hfits : Fits l .blank := fits_of_isMetBy ((isMetBy_blank _).2 hl) nofun
    have hone : afterOne (blanks.words * L) l = blanks.words * L := by
      nth_rewrite 1 [blanks_mul_eq]
      rw [afterOne_add, hL', zero_add, afterOne_pattern_mul hfits]
    rw [after_cons, hone]
    exact ih hb

/-! ## Repetitions -/

/-- What may come after an item of a list that `L` ends: the end, or more items. -/
def afterItem (item : Nonterminal) (L : Language Expectation) : Language Expectation :=
  blanks.words * L + blanks.words * ((separated item).words * (blanks.words * L))

theorem separated_mul (item : Nonterminal) (L : Language Expectation) :
    (separated item).words * (blanks.words * L) = item.words * afterItem item L := by
  nth_rewrite 1 [words_separated]
  simp only [afterItem, add_mul, mul_add, mul_assoc]

theorem afterItem_eq (item : Nonterminal) (L : Language Expectation) :
    afterItem item L = blanks.words * (L + item.words * afterItem item L) := by
  rw [← separated_mul, mul_add]
  rfl

instance {item : Nonterminal} [Productive L] : Productive (afterItem item L) := .add_left _

end Languages

end PieChecker.Surface.Grammar

namespace PieChecker.Surface.Reader

open Grammar Nonterminal

/-- What comes next in a text, a lexeme or the end, meets the expectation. -/
def Met : List Lexeme → Expectation → Prop
  | [], π => π = .endOfText
  | l :: _, π => π.isMetBy l.token = true

/-- The result of reading lexemes where the language `K` may come is explained: what was read
leads to where `M` may come; or reading stopped where exactly what was expected can come next,
and none of it does; or it stopped after a number that is too large. -/
inductive Explained {α : Type} (K M : Language Expectation) (ts : List Lexeme) :
    Except Refusal (α × List Lexeme) → Prop where
  | ok {a : α} {used rest : List Lexeme} (hts : ts = used ++ rest) (hafter : after K used = M) :
    Explained K M ts (.ok (a, rest))
  | refused {read rest : List Lexeme} {expected : List Expectation} (hts : ts = read ++ rest)
      (hne : expected ≠ [])
    (hnext : ∀ π, π ∈ next (after K read) ↔ π ∈ expected)
    (hstuck : ∀ π ∈ expected, ¬ Met rest π) :
    Explained K M ts (.error ⟨rest, expected⟩)
  | oversized {refusal : Refusal} (h : ∃ l ∈ ts, l.token = .number ∧ 2 ^ 64 ≤ decimal l.text) :
    Explained K M ts (.error refusal)

/-- Reading is explained for all texts below a given length. -/
def Follows {α : Type} (n : Nat) (r : Reader α) (K M : Language Expectation) : Prop :=
  ∀ ts : List Lexeme, ts.length < n → Explained K M ts (r ts)

section Explained

variable {α β : Type} {K L M N : Language Expectation} {ts us : List Lexeme} {p : Reader α}
  {f : α → Reader β} {n : Nat} {others : List Expectation} {π : Expectation}

/-- Lexemes that were read before. -/
theorem Explained.prepend {result : Except Refusal (α × List Lexeme)}
    (h : Explained (after K us) M ts result) :
    Explained K M (us ++ ts) result := by
  cases h with
  | ok hts hafter =>
    rw [hts, ← List.append_assoc]
    exact .ok rfl (by rw [after_append, hafter])
  | refused hts hne hnext hstuck =>
    rw [hts, ← List.append_assoc]
    exact .refused rfl hne (by rwa [after_append]) hstuck
  | oversized h =>
    obtain ⟨l, hl, hlarge⟩ := h
    exact .oversized ⟨l, List.mem_append_right us hl, hlarge⟩

/-- One lexeme that was read before. -/
theorem Explained.cons {result : Except Refusal (α × List Lexeme)} {l : Lexeme}
    (h : Explained (afterOne K l) M ts result) : Explained K M (l :: ts) result := by
  rw [← List.singleton_append]
  exact .prepend h

theorem Explained.bind (hp : Explained K M ts (p ts))
    (hf : ∀ a rest, p ts = .ok (a, rest) → rest.length ≤ ts.length →
      Explained M N rest (f a rest)) :
    Explained K N ts ((p >>= f) ts) := by
  have hbind : (p >>= f) ts = (p ts >>= fun r => f r.1 r.2) := rfl
  rw [hbind]
  generalize hread : p ts = result at hp hf
  cases hp with
  | ok hts hafter =>
    have hrest := hf _ _ rfl (by rw [hts, List.length_append]; omega)
    rw [hts]
    exact .prepend (by rwa [hafter])
  | refused hts hne hnext hstuck => exact .refused hts hne hnext hstuck
  | oversized h => exact .oversized h

theorem Follows.bind (hp : Follows n p K M) (hf : ∀ a, Follows n (f a) M N) :
    Follows n (p >>= f) K N :=
  fun ts hts => (hp ts hts).bind fun a rest _ hrest => hf a rest (hrest.trans_lt hts)

theorem Follows.pure (a : α) (K : Language Expectation) :
    Follows n (Pure.pure a : Reader α) K K :=
  fun ts _ => .ok (List.nil_append ts).symm rfl

/-- Reading of something that starts with the next lexeme is explained in the same way where
something else may come too, if that does not start with this lexeme. -/
theorem Explained.widen {result : Except Refusal (α × List Lexeme)} {l : Lexeme}
    (h : Explained K M (l :: ts) result) (hone : afterOne L l = afterOne K l)
    (hmet : ∃ π ∈ next K, π.isMetBy l.token = true)
    (hused : ∀ a rest, result = .ok (a, rest) → rest.length < (l :: ts).length) :
    Explained L M (l :: ts) result := by
  cases h with
  | @ok a used rest hts hafter =>
    cases used with
    | nil =>
      have hlen := hused a rest rfl
      rw [hts, List.nil_append] at hlen
      omega
    | cons l' used =>
      obtain ⟨rfl, hts'⟩ := List.cons.inj hts
      exact .ok hts (by rwa [after_cons, hone])
  | @refused read rest expected hts hne hnext hstuck =>
    cases read with
    | nil =>
      obtain ⟨π, hπ, hlπ⟩ := hmet
      rw [List.nil_append] at hts
      refine (hstuck π ((hnext π).1 hπ) ?_).elim
      rw [← hts]
      exact hlπ
    | cons l' read =>
      obtain ⟨rfl, hts'⟩ := List.cons.inj hts
      exact .refused hts hne (by rwa [after_cons, hone]) hstuck
  | oversized h => exact .oversized h

/-! ## Single lexemes -/

/-- Where `K` may come, `L` may come, and only the others besides; what comes next is none of
the others. -/
structure Offers (K L : Language Expectation) (others : List Expectation)
    (ts : List Lexeme) : Prop where
  mem_next_iff : ∀ π, π ∈ next K ↔ π ∈ others ∨ π ∈ next L
  afterOne_eq : ∀ l ∈ ts.head?, afterOne K l = afterOne L l
  not_met : ∀ π ∈ others, ¬ Met ts π

theorem Offers.refl (K : Language Expectation) (ts : List Lexeme) : Offers K K [] ts where
  mem_next_iff π := by simp
  afterOne_eq _ _ := rfl
  not_met := nofun

theorem Offers.blanks [Productive L] (hts : ∀ l ∈ ts.head?, l.token ≠ .blank) :
    Offers (blanks.words * L) L [.blank] ts where
  mem_next_iff π := by rw [mem_next_blanks_mul, List.mem_singleton]
  afterOne_eq l hl := afterOne_blanks_mul_of_ne (hts l hl)
  not_met π hπ hmet := by
    obtain rfl := List.mem_singleton.1 hπ
    cases ts with
    | nil => cases hmet
    | cons l ts => exact hts l rfl ((isMetBy_blank _).1 hmet)

/-- What cannot come next can be set apart. -/
theorem Offers.add {more : List Expectation} (h : Offers K (L + N) others ts)
    (hN : ∀ π, π ∈ next N ↔ π ∈ more) (hmore : ∀ π ∈ more, ¬ Met ts π) :
    Offers K L (others ++ more) ts where
  mem_next_iff π := by
    rw [h.mem_next_iff, mem_next_add, hN, List.mem_append, or_assoc, or_comm (a := π ∈ next L)]
  afterOne_eq l hl := by
    obtain ⟨us, rfl⟩ := List.head?_eq_some_iff.1 hl
    have hzero : afterOne N l = 0 :=
      afterOne_eq_zero fun π hπ => Bool.not_eq_true _ ▸ hmore π ((hN π).1 hπ)
    rw [h.afterOne_eq l hl, afterOne_add, hzero, add_zero]
  not_met π hπ := by
    rcases List.mem_append.1 hπ with hπ | hπ
    · exact h.not_met π hπ
    · exact hmore π hπ

theorem explained_take [Productive M] (hnumber : π ≠ .number) (hend : π ≠ .endOfText)
    (h : Offers K (pattern π * M) others ts) : Explained K M ts (take [π] others ts) := by
  have hnext : ∀ σ, σ ∈ next K ↔ σ ∈ others ++ [π] := fun σ => by
    rw [h.mem_next_iff, mem_next_pattern_mul, List.mem_append, List.mem_singleton]
  have hrefused (hπ : ¬ Met ts π) :
      Explained K M ts (.error ⟨ts, others ++ [π]⟩ : Except Refusal (Lexeme × _)) := by
    refine .refused (List.nil_append ts).symm (by simp) hnext fun σ hσ => ?_
    rcases List.mem_append.1 hσ with hσ | hσ
    · exact h.not_met σ hσ
    · rwa [List.mem_singleton.1 hσ]
  unfold take
  cases ts with
  | nil => exact hrefused hend
  | cons l ts =>
    simp only [List.any_cons, List.any_nil, Bool.or_false]
    split
    · rename_i hmet
      refine .ok (List.singleton_append).symm ?_
      rw [after_cons, after_nil, h.afterOne_eq l rfl,
        afterOne_pattern_mul (fits_of_isMetBy hmet hnumber)]
    · rename_i hmet
      exact hrefused hmet

/-- Skipping blanks first. -/
theorem Explained.skipped {result : Except Refusal (α × List Lexeme)} (hL : .blank ∉ next L)
    (h : Explained (blanks.words * L) M (skip ts) result) :
    Explained (blanks.words * L) M ts result := by
  obtain ⟨b, hb, hts⟩ := exists_blanks_append_skip ts
  rw [hts]
  exact .prepend (by rwa [after_blanks_mul hL hb])

theorem explained_takeNext [Productive M] (hπ : π ∉ [.number, .endOfText, .blank])
    (hN : ∀ σ, σ ∈ next N ↔ σ ∈ others) (hblank : .blank ∉ others)
    (hothers : ∀ σ ∈ others, ¬ Met (skip ts) σ) :
    Explained (blanks.words * (pattern π * M + N)) M ts (takeNext π others ts) := by
  have htakeNext : takeNext π others ts = take [π] (.blank :: others) (skip ts) := rfl
  simp only [List.mem_cons, List.not_mem_nil, or_false, not_or] at hπ
  obtain ⟨hnumber, hend, hne⟩ := hπ
  have hoffers : Offers (blanks.words * (pattern π * M + N)) (pattern π * M) (.blank :: others)
      (skip ts) :=
    (Offers.blanks (ne_blank_of_head?_skip ts)).add hN hothers
  refine .skipped ?_ (htakeNext ▸ explained_take hnumber hend hoffers)
  rw [mem_next_add, mem_next_pattern_mul, hN]
  rintro (h | h)
  · exact hne h.symm
  · exact hblank h

theorem follows_takeNext [Productive M] (hπ : π ∉ [.number, .endOfText, .blank]) :
    Follows n (takeNext π []) (blanks.words * (pattern π * M)) M := by
  intro ts _
  have h : Explained (blanks.words * (pattern π * M + 0)) M ts (takeNext π [] ts) :=
    explained_takeNext hπ (by simp [mem_next_zero]) nofun nofun
  rwa [add_zero] at h

theorem follows_close [Productive M] :
    Follows n (close []) (blanks.words * (pattern .closing * M)) M :=
  (follows_takeNext (by decide)).bind fun _ => .pure _ _

theorem follows_site [Productive M] : Follows n site (blanks.words * (pattern .name * M)) M :=
  (follows_takeNext (by decide)).bind fun _ => .pure _ _

end Explained

/-! ## Repetitions -/

section Repetitions

variable {α β : Type} {item : Reader α} {starts : Token → Bool}
  {X L : Language Expectation} {n : Nat} {ts rest : List Lexeme} {others : List Expectation}

/-- Where a repetition ends, no item comes, and no blank. -/
theorem many_stops (hused : ∀ us a rest, item us = .ok (a, rest) → rest.length < us.length)
    {bound : Nat} {as : List α} (hbound : ts.length ≤ bound)
    (h : many starts item bound ts = .ok (as, rest)) :
    ∀ l ∈ rest.head?, l.token ≠ .blank ∧ starts l.token = false := by
  induction bound generalizing ts as with
  | zero =>
    obtain ⟨-, rfl⟩ := pure_eq_ok_iff.1 h
    obtain rfl := List.length_eq_zero_iff.1 (Nat.le_zero.1 hbound)
    nofun
  | succ bound ih =>
    rw [many, skipBlanks_peek_eq_ok_iff] at h
    have hskip : (skip ts).length ≤ bound + 1 :=
      (List.dropWhile_suffix _).length_le.trans hbound
    have hblank := ne_blank_of_head?_skip ts
    generalize skip ts = us at h hskip hblank
    cases us with
    | nil =>
      obtain ⟨-, rfl⟩ := pure_eq_ok_iff.1 h
      nofun
    | cons l us =>
      simp only [List.head?_cons, Option.map_some] at h
      split at h
      · simp only [bind_eq_ok_iff, pure_eq_ok_iff] at h
        obtain ⟨a, mid, ha, as', _, has, -, rfl⟩ := h
        have hlen := hused _ _ _ ha
        exact ih (by omega) has
      · rename_i hstarts
        obtain ⟨-, rfl⟩ := pure_eq_ok_iff.1 h
        rintro l' ⟨⟩
        exact ⟨hblank l rfl, Bool.not_eq_true _ ▸ hstarts⟩

/-- A reader for the items of a list, with blanks before each, and the patterns with which an
item can start. -/
structure ReadsItems (n : Nat) (r : Reader α) (item : Nonterminal) (starts : Token → Bool)
    (firsts : List Expectation) :
    Prop where
  follows : ∀ (M : Language Expectation) [Productive M],
    Follows n r (blanks.words * (item.words * M)) M
  progress : ∀ us a rest, r us = .ok (a, rest) → rest.length < us.length
  mem_next_iff : ∀ (M : Language Expectation) [Productive M] (π : Expectation),
    π ∈ next (item.words * M) ↔ π ∈ firsts
  starts_iff : ∀ t, starts t = true ↔ ∃ π ∈ firsts, π.isMetBy t = true
  proper : ∀ π ∈ firsts, π ∉ [.blank, .closing, .endOfText]

theorem eq_closing_of_isMetBy {π : Expectation} (h : π.isMetBy .closing = true) :
    π = .closing := by
  cases π <;> first | rfl | cases h

namespace ReadsItems

variable {r : Reader α} {item : Nonterminal} {firsts : List Expectation}
  {M : Language Expectation}

/-- After an item come blanks, and then the next one or the closing bracket. -/
theorem afterItem_eq_blanks_mul (item : Nonterminal) (M : Language Expectation) :
    afterItem item (pattern .closing * M) =
      blanks.words * (pattern .closing * M + item.words * afterItem item
        (pattern .closing * M)) :=
  afterItem_eq item _

theorem blank_not_mem_next (h : ReadsItems n r item starts firsts) [Productive M] :
    .blank ∉ next (pattern .closing * M + item.words * afterItem item
      (pattern .closing * M)) := by
  rw [mem_next_add, mem_next_pattern_mul, h.mem_next_iff]
  rintro (hblank | hblank)
  · cases hblank
  · exact h.proper _ hblank (by decide)

/-- An item that is there is read as one of the list. -/
theorem explained_item (h : ReadsItems n r item starts firsts) [Productive M] {l : Lexeme}
    (hts : (l :: ts).length < n) (hblank : l.token ≠ .blank) (hl : starts l.token = true) :
    Explained (afterItem item (pattern .closing * M)) (afterItem item (pattern .closing * M))
      (l :: ts) (r (l :: ts)) := by
  have hitem := h.follows (afterItem item (pattern .closing * M)) (l :: ts) hts
  obtain ⟨π, hπ, hmet⟩ := (h.starts_iff _).1 hl
  have hclosing : afterOne (pattern .closing * M) l = 0 := by
    refine afterOne_eq_zero fun σ hσ => ?_
    rw [mem_next_pattern_mul] at hσ
    rw [hσ, ← Bool.not_eq_true, isMetBy_closing]
    intro hl'
    rw [hl'] at hmet
    exact h.proper π hπ (by rw [eq_closing_of_isMetBy hmet]; decide)
  refine hitem.widen ?_ ⟨π, ?_, hmet⟩ fun a rest hread => h.progress _ a rest hread
  · rw [afterItem_eq_blanks_mul, afterOne_blanks_mul_of_ne hblank,
      afterOne_blanks_mul_of_ne hblank, afterOne_add, hclosing, zero_add,
      ← afterItem_eq_blanks_mul]
  · rw [mem_next_blanks_mul, h.mem_next_iff]
    exact .inr hπ

theorem explained_many (h : ReadsItems n r item starts firsts) [Productive M] (bound : Nat)
    (hts : ts.length < n) :
    Explained (afterItem item (pattern .closing * M)) (afterItem item (pattern .closing * M)) ts
      (many starts r bound ts) := by
  induction bound generalizing ts with
  | zero => exact Follows.pure [] _ ts hts
  | succ bound ih =>
    have hskip : (skip ts).length < n := (List.dropWhile_suffix _).length_le.trans_lt hts
    have hblank := ne_blank_of_head?_skip ts
    rw [many, skipBlanks_peek, afterItem_eq_blanks_mul]
    refine .skipped h.blank_not_mem_next ?_
    rw [← afterItem_eq_blanks_mul]
    generalize skip ts = us at hskip hblank
    cases us with
    | nil => exact Follows.pure [] _ [] hskip
    | cons l us =>
      simp only [List.head?_cons, Option.map_some]
      split
      · rename_i hl
        refine (h.explained_item hskip (hblank l rfl) hl).bind fun a rest _ hrest => ?_
        exact (ih (by omega)).bind fun as rest _ _ => .ok (List.nil_append rest).symm rfl
      · exact Follows.pure [] _ _ hskip

/-- One item or more, and the closing bracket. -/
theorem follows_listed (h : ReadsItems n r item starts firsts) [Productive M]
    (result : α → List α → Nat → β) :
    Follows n (do
      let a ← r
      let as ← manyAvailable starts r
      let stop ← close firsts
      return result a as stop)
      (blanks.words * ((separated item).words * (blanks.words * (pattern .closing * M))))
        M := by
  intro ts hts
  rw [separated_mul]
  refine (h.follows _ ts hts).bind fun a mid _ hmid => ?_
  have hitems : Explained (afterItem item (pattern .closing * M))
      (afterItem item (pattern .closing * M)) mid (manyAvailable starts r mid) :=
        h.explained_many mid.length (hmid.trans_lt hts)
  refine hitems.bind fun as rest hmany _ => ?_
  -- the repetition has ended, so the next lexeme starts no item
  have hstops := many_stops h.progress le_rfl hmany
  have hskip : skip rest = rest := by
    cases rest with
    | nil => rfl
    | cons l rest => exact skip_cons (hstops l rfl).1 rest
  rw [afterItem_eq_blanks_mul]
  refine Explained.bind (p := close firsts) ?_ fun stop rest _ _ =>
    .ok (List.nil_append rest).symm rfl
  refine Explained.bind (p := takeNext .closing firsts) ?_ fun l rest _ _ =>
    .ok (List.nil_append rest).symm rfl
  refine explained_takeNext (by decide) (h.mem_next_iff _)
    (fun hblank => h.proper _ hblank (by decide))
    fun σ hσ hmet => ?_
  rw [hskip] at hmet
  cases rest with
  | nil =>
    obtain rfl : σ = .endOfText := hmet
    exact h.proper _ hσ (by decide)
  | cons l rest =>
    have hstarts := (h.starts_iff l.token).2 ⟨σ, hσ, hmet⟩
    rw [(hstops l rfl).2] at hstarts
    cases hstarts

theorem follows_group {first : Expectation} (h : ReadsItems n r item first.isMetBy [first])
    [Productive M] :
    Follows n (group first r)
      (blanks.words * (pattern .opening *
        (blanks.words * ((separated item).words * (blanks.words * (pattern .closing * M))))))
          M :=
  (follows_takeNext (by decide)).bind fun _ => h.follows_listed fun a as _ => a :: as

end ReadsItems

end Repetitions

end PieChecker.Surface.Reader
