import Mathlib.Data.List.Induction
import Mathlib.Data.List.TakeWhile
import PieChecker.Proofs.Parsing.Grammar

set_option autoImplicit false

/-!
# Readers and what they read

A reader is sound for a rule of the grammar if the lexemes that it consumes derive what it
returns. It is complete, for derivations up to a given length, if it consumes these whatever
comes after them.

A repetition reads on as long as the next lexeme can start an item. It is complete where
something else follows it: an item starts with a lexeme that can start one, so the repetition
ends where the derivation does.
-/

namespace PieChecker.Surface.Reader

open Grammar

section Steps

variable {α β : Type}

theorem bind_run (p : Reader α) (f : α → Reader β) (ts : List Lexeme) :
    (p >>= f) ts = (p ts >>= fun r => f r.1 r.2) := rfl

theorem bind_of_ok {p : Reader α} {f : α → Reader β} {ts rest : List Lexeme} {a : α}
    (h : p ts = .ok (a, rest)) : (p >>= f) ts = f a rest := by
  rw [bind_run, h]
  rfl

theorem bind_of_error {p : Reader α} {f : α → Reader β} {ts : List Lexeme} {refusal : Refusal}
    (h : p ts = .error refusal) : (p >>= f) ts = .error refusal := by
  rw [bind_run, h]
  rfl

/-- Two readers in a row. -/
theorem bind_eq_ok_iff {p : Reader α} {f : α → Reader β} {ts rest : List Lexeme} {b : β} :
    (p >>= f) ts = .ok (b, rest) ↔ ∃ a mid, p ts = .ok (a, mid) ∧ f a mid = .ok (b, rest) := by
  rw [bind_run]
  cases p ts with
  | error e => exact ⟨nofun, fun ⟨_, _, h, _⟩ => nomatch h⟩
  | ok r => exact ⟨fun h => ⟨r.1, r.2, rfl, h⟩, fun ⟨_, _, hr, h⟩ => by cases hr; exact h⟩

theorem pure_eq_ok_iff {ts rest : List Lexeme} {a b : α} :
    (pure a : Reader α) ts = .ok (b, rest) ↔ a = b ∧ ts = rest := by
  have hpure : (pure a : Reader α) ts = .ok (a, ts) := rfl
  rw [hpure, Except.ok.injEq, Prod.mk.injEq]

/-- The lexemes after the blanks at the front. -/
def skip (ts : List Lexeme) : List Lexeme := ts.dropWhile (·.token = .blank)

theorem skipBlanks_eq_ok_iff {ts rest : List Lexeme} {u : Unit} :
    skipBlanks ts = .ok (u, rest) ↔ skip ts = rest := by
  have hskip : skipBlanks ts = .ok ((), skip ts) := rfl
  rw [hskip, Except.ok.injEq, Prod.mk.injEq]
  exact ⟨fun h => h.2, fun h => ⟨rfl, h⟩⟩

theorem peek_eq_ok_iff {ts rest : List Lexeme} {o : Option Token} :
    peek ts = .ok (o, rest) ↔ ts.head?.map Lexeme.token = o ∧ ts = rest := by
  have hpeek : peek ts = .ok (ts.head?.map Lexeme.token, ts) := rfl
  rw [hpeek, Except.ok.injEq, Prod.mk.injEq]

/-- A reader that skips blanks and then looks at the next lexeme. -/
theorem skipBlanks_peek_eq_ok_iff {body : Option Token → Reader α}
    {ts rest : List Lexeme} {a : α} :
    (do skipBlanks; body (← peek)) ts = .ok (a, rest) ↔
      body ((skip ts).head?.map Lexeme.token) (skip ts) = .ok (a, rest) := by
  simp only [bind_eq_ok_iff, skipBlanks_eq_ok_iff, peek_eq_ok_iff]
  constructor
  · rintro ⟨_, _, rfl, _, _, ⟨rfl, rfl⟩, h⟩
    exact h
  · intro h
    exact ⟨(), _, rfl, _, _, ⟨rfl, rfl⟩, h⟩

theorem skipBlanks_peek (body : Option Token → Reader α) (ts : List Lexeme) :
    (do skipBlanks; body (← peek) : Reader α) ts =
      body ((skip ts).head?.map Lexeme.token) (skip ts) := rfl

theorem modify_eq_ok_iff {f : List Lexeme → List Lexeme} {ts rest : List Lexeme} {u : Unit} :
    (modify f : Reader Unit) ts = .ok (u, rest) ↔ f ts = rest := by
  have hmodify : (modify f : Reader Unit) ts = .ok ((), f ts) := rfl
  rw [hmodify, Except.ok.injEq, Prod.mk.injEq]
  exact ⟨fun h => h.2, fun h => ⟨rfl, h⟩⟩

theorem get_eq_ok_iff {ts rest us : List Lexeme} :
    (get : Reader (List Lexeme)) ts = .ok (us, rest) ↔ ts = us ∧ ts = rest := by
  have hget : (get : Reader (List Lexeme)) ts = .ok (ts, ts) := rfl
  rw [hget, Except.ok.injEq, Prod.mk.injEq]

theorem set_eq_ok_iff {ts us rest : List Lexeme} {u : PUnit} :
    (set us : Reader PUnit) ts = .ok (u, rest) ↔ us = rest := by
  have hset : (set us : Reader PUnit) ts = .ok (⟨⟩, us) := rfl
  rw [hset, Except.ok.injEq, Prod.mk.injEq]
  exact ⟨fun h => h.2, fun h => ⟨rfl, h⟩⟩

theorem refuse_ne_ok {expected : List Expectation} {ts rest : List Lexeme} {a : α} :
    (refuse expected : Reader α) ts ≠ .ok (a, rest) := nofun

/-- Going through digits from the left gives the number that they spell. -/
theorem foldl_eq_ofDigits (value : Char → Nat) (cs : List Char) :
    cs.foldl (fun n c => 10 * n + value c) 0 = Nat.ofDigits 10 (cs.map value).reverse := by
  rw [Nat.ofDigits_eq_foldr, List.foldr_reverse, List.foldl_map]
  simp only [Nat.cast_id, Nat.add_comm]

theorem decimal_text (l : Lexeme) : l.decimal = decimal l.text := foldl_eq_ofDigits _ _

theorem number_eq_ok_iff {l : Lexeme} {ts rest : List Lexeme} {n : Nat} :
    number l ts = .ok (n, rest) ↔ (decimal l.text = n ∧ decimal l.text < 2 ^ 64) ∧
    ts = rest := by
  have hsize : UInt64.size = 2 ^ 64 := by decide
  unfold number
  rw [decimal_text, hsize]
  split
  · rename_i hsmall
    rw [pure_eq_ok_iff, and_iff_left hsmall]
  · rename_i hlarge
    exact ⟨fun h => (refuse_ne_ok h).elim, fun h => (hlarge h.1.2).elim⟩

end Steps

/-! ## Blanks -/

theorem skip_append {b : List Lexeme} (hb : Blanks b) (ts : List Lexeme) :
    skip (b ++ ts) = skip ts := by
  induction b with
  | nil => rfl
  | cons l b ih =>
    have hl : l.token = .blank := hb l List.mem_cons_self
    rw [List.cons_append, skip, List.dropWhile_cons_of_pos (by simp [hl])]
    exact ih fun l' hl' => hb l' (List.mem_cons_of_mem _ hl')

theorem skip_cons {l : Lexeme} (hl : l.token ≠ .blank) (ts : List Lexeme) :
    skip (l :: ts) = l :: ts := by
  rw [skip, List.dropWhile_cons_of_neg (by simp [hl])]

theorem skip_blanks {b : List Lexeme} (hb : Blanks b) : skip b = [] := by
  rw [← List.append_nil b, skip_append hb]
  rfl

theorem skip_append_cons {b : List Lexeme} (hb : Blanks b) {l : Lexeme} (hl : l.token ≠ .blank)
    (ts : List Lexeme) :
    skip (b ++ l :: ts) = l :: ts := by
  rw [skip_append hb, skip_cons hl]

theorem exists_blanks_append_skip (ts : List Lexeme) : ∃ b, Blanks b ∧ ts = b ++ skip ts := by
  refine ⟨ts.takeWhile (·.token = .blank), fun l hl => ?_, List.takeWhile_append_dropWhile.symm⟩
  have hblank := List.mem_takeWhile_imp hl
  exact of_decide_eq_true hblank

theorem ne_blank_of_head?_skip (ts : List Lexeme) :
    ∀ l ∈ (skip ts).head?, l.token ≠ .blank := by
  intro l hl hblank
  have hnot := List.head?_dropWhile_not (fun l : Lexeme => decide (l.token = .blank)) ts
  rw [skip, Option.mem_def] at hl
  rw [hl] at hnot
  simp [hblank] at hnot

theorem skip_of_head? {ts : List Lexeme} (h : ∀ l ∈ ts.head?, l.token ≠ .blank) :
    skip ts = ts := by
  cases ts with
  | nil => rfl
  | cons l ts => exact skip_cons (h l rfl) ts

theorem skip_skip (ts : List Lexeme) : skip (skip ts) = skip ts :=
  skip_of_head? (ne_blank_of_head?_skip ts)

/-! ## Rules with blanks and brackets -/

section Rules

variable {α : Type}

/-- What a rule derives, with blanks before it. -/
inductive Spaced (Rule : List Lexeme → α → Prop) : List Lexeme → α → Prop where
  | mk {b ts : List Lexeme} {a : α} (hb : Blanks b) (h : Rule ts a) : Spaced Rule (b ++ ts) a

/-- What a rule derives, with blanks after it. -/
inductive Trailed (Rule : List Lexeme → α → Prop) : List Lexeme → α → Prop where
  | mk {ts b : List Lexeme} {a : α} (h : Rule ts a) (hb : Blanks b) : Trailed Rule (ts ++ b) a

/-- What a rule derives, with brackets around it. -/
inductive Bracketed (Rule : List Lexeme → α → Prop) : List Lexeme → α → Prop where
  | mk {l r : Lexeme} {b ts b' : List Lexeme} {a : α} (hl : l.token = .opening) (hb : Blanks b)
      (h : Rule ts a)
    (hb' : Blanks b') (hr : r.token = .closing) : Bracketed Rule (l :: (b ++ ts ++ b' ++ [r])) a

/-- What a reader consumes derives what it returns. -/
def Sound (r : Reader α) (Rule : List Lexeme → α → Prop) : Prop :=
  ∀ ⦃ts : List Lexeme⦄ ⦃a : α⦄ ⦃rest : List Lexeme⦄, r ts = .ok (a, rest) →
    ∃ used, ts = used ++ rest ∧ Rule used a

/-- A reader consumes what a rule derives, up to the given length and whatever comes after
it. -/
def Complete (r : Reader α) (Rule : List Lexeme → α → Prop) (n : Nat) : Prop :=
  ∀ ⦃used : List Lexeme⦄ ⦃a : α⦄, Rule used a → used.length ≤ n →
    ∀ rest, r (used ++ rest) = .ok (a, rest)

/-! ## Single lexemes -/

theorem take_eq_ok_iff {accepted others : List Expectation} {ts rest : List Lexeme}
    {l : Lexeme} :
    take accepted others ts = .ok (l, rest) ↔ ts = l :: rest ∧
    accepted.any (·.isMetBy l.token) = true := by
  unfold take
  cases ts with
  | nil => exact ⟨nofun, fun ⟨h, _⟩ => nomatch h⟩
  | cons l' ts =>
    dsimp only
    split
    · rename_i hmet
      rw [Except.ok.injEq, Prod.mk.injEq, List.cons.injEq]
      exact ⟨fun ⟨hl, hr⟩ => ⟨⟨hl, hr⟩, hl ▸ hmet⟩, fun h => h.1⟩
    · rename_i hmet
      refine ⟨nofun, ?_⟩
      rintro ⟨h, hl⟩
      cases h
      exact (hmet hl).elim

theorem takeNext_of_met {π : Expectation} {others : List Expectation} {ts rest : List Lexeme}
    {l : Lexeme} (hskip : skip ts = l :: rest) (h : π.isMetBy l.token = true) :
    takeNext π others ts = .ok (l, rest) := by
  have htake : takeNext π others ts = take [π] (.blank :: others) (skip ts) := rfl
  rw [htake, take_eq_ok_iff]
  exact ⟨hskip, by rw [List.any_cons, h]; rfl⟩

theorem takeNext_of_not_met {π : Expectation} {others : List Expectation} {ts : List Lexeme}
    (h : ∀ l ∈ (skip ts).head?, π.isMetBy l.token = false) :
    takeNext π others ts = .error ⟨skip ts, .blank :: others ++ [π]⟩ := by
  have htake : takeNext π others ts = take [π] (.blank :: others) (skip ts) := rfl
  rw [htake]
  cases hskip : skip ts with
  | nil => rfl
  | cons l us =>
    rw [hskip] at h
    exact if_neg (by simp [h l rfl])

/-- A reader of one class of lexemes, which are not blanks, takes the next lexeme that is not a
blank. -/
theorem takeNext_eq_ok_iff {accepted : Expectation} {token : Token}
    (hmet : ∀ t, accepted.isMetBy t = true ↔ t = token) (hne : token ≠ .blank)
    {others : List Expectation} {ts rest : List Lexeme} {l : Lexeme} :
    takeNext accepted others ts = .ok (l, rest) ↔ ∃ b, Blanks b ∧ l.token = token ∧
    ts = b ++ l :: rest := by
  unfold takeNext
  rw [bind_eq_ok_iff]
  simp only [skipBlanks_eq_ok_iff, take_eq_ok_iff, List.any_cons, List.any_nil,
    Bool.or_false, hmet]
  constructor
  · rintro ⟨_, _, rfl, hskip, hl⟩
    obtain ⟨b, hb, hts⟩ := exists_blanks_append_skip ts
    exact ⟨b, hb, hl, hskip ▸ hts⟩
  · rintro ⟨b, hb, hl, rfl⟩
    exact ⟨(), _, rfl, skip_append_cons hb (hl ▸ hne) rest, hl⟩

theorem isMetBy_opening (t : Token) : Expectation.opening.isMetBy t = true ↔ t = .opening := by
  cases t <;> simp [Expectation.isMetBy]

theorem isMetBy_closing (t : Token) : Expectation.closing.isMetBy t = true ↔ t = .closing := by
  cases t <;> simp [Expectation.isMetBy]

theorem isMetBy_name (t : Token) : Expectation.name.isMetBy t = true ↔ t = .name := by
  cases t <;> simp [Expectation.isMetBy]

theorem isMetBy_keyword (k : Keyword) (t : Token) : (Expectation.keyword k).isMetBy t = true ↔
    t = .keyword k := by
  cases t <;> simp [Expectation.isMetBy, eq_comm]

theorem open_eq_ok_iff {others : List Expectation} {ts rest : List Lexeme} {l : Lexeme} :
    takeNext .opening others ts = .ok (l, rest) ↔ ∃ b, Blanks b ∧ l.token = .opening ∧
    ts = b ++ l :: rest :=
  takeNext_eq_ok_iff isMetBy_opening nofun

theorem close_eq_ok_iff {others : List Expectation} {ts rest : List Lexeme} {stop : Nat} :
    close others ts = .ok (stop, rest) ↔ ∃ b r, Blanks b ∧ r.token = .closing ∧ r.stop = stop ∧
    ts = b ++ r :: rest := by
  unfold close
  rw [bind_eq_ok_iff]
  simp only [takeNext_eq_ok_iff isMetBy_closing nofun, pure_eq_ok_iff]
  constructor
  · rintro ⟨r, _, ⟨b, hb, hr, rfl⟩, rfl, rfl⟩
    exact ⟨b, r, hb, hr, rfl, rfl⟩
  · rintro ⟨b, r, hb, hr, rfl, rfl⟩
    exact ⟨r, rest, ⟨b, hb, hr, rfl⟩, rfl, rfl⟩

theorem site_eq_ok_iff {ts rest : List Lexeme} {x : Site} :
    site ts = .ok (x, rest) ↔ ∃ b used, Blanks b ∧ BindingSite used x ∧
    ts = b ++ (used ++ rest) := by
  unfold site
  rw [bind_eq_ok_iff]
  simp only [takeNext_eq_ok_iff isMetBy_name nofun, pure_eq_ok_iff]
  constructor
  · rintro ⟨l, _, ⟨b, hb, hl, rfl⟩, rfl, rfl⟩
    exact ⟨b, [l], hb, .name hl, rfl⟩
  · rintro ⟨b, _, hb, ⟨hl⟩, rfl⟩
    exact ⟨_, rest, ⟨b, hb, hl, rfl⟩, rfl, rfl⟩

theorem site_sound : Sound site (Spaced BindingSite) := by
  intro ts x rest h
  obtain ⟨b, used, hb, hx, rfl⟩ := site_eq_ok_iff.1 h
  exact ⟨b ++ used, (List.append_assoc ..).symm, .mk hb hx⟩

theorem site_complete (n : Nat) : Complete site (Spaced BindingSite) n := by
  rintro _ x ⟨hb, hx⟩ - rest
  exact site_eq_ok_iff.2 ⟨_, _, hb, hx, List.append_assoc ..⟩

theorem quoted_eq_ok_iff {others : List Expectation} {ts rest : List Lexeme} {l : Lexeme} :
    quoted others ts = .ok (l, rest) ↔ ts = l :: rest ∧ Quotable l := by
  unfold quoted
  rw [take_eq_ok_iff]
  refine and_congr_right fun _ => ?_
  rw [List.any_cons, List.any_nil, Bool.or_false]
  constructor
  · intro h
    cases ht : l.token with
    | name => exact .name ht
    | keyword k => exact .keyword k ht
    | _ => rw [ht] at h; cases h
  · rintro (h | ⟨k, h⟩) <;> rw [h] <;> rfl

/-! ## Repetitions -/

variable {Item : List Lexeme → α → Prop} {item : Reader α} {starts : Token → Bool} {n : Nat}

/-- Every item starts with a lexeme that can start one. -/
def Begins (starts : Token → Bool) (Item : List Lexeme → α → Prop) : Prop :=
  ∀ ⦃ts : List Lexeme⦄ ⦃a : α⦄, Item ts a → ∃ l ts', ts = l :: ts' ∧ starts l.token = true

/-- An item and a series after it are a series. -/
theorem Sound.series_cons (hs : Sound item (Spaced Item)) {ts mid rest : List Lexeme} {a : α}
    {as : List α} (h : item ts = .ok (a, mid))
    (hrest : ∃ used, mid = used ++ rest ∧ Series Item used as) :
    ∃ used, ts = used ++ rest ∧ Series Item used (a :: as) := by
  obtain ⟨used, rfl, hused⟩ := hrest
  obtain ⟨_, rfl, ⟨hb, h⟩⟩ := hs h
  exact ⟨_, (List.append_assoc ..).symm, .cons hb h hused⟩

theorem Series.exists_nil (rest : List Lexeme) :
    ∃ used, rest = used ++ rest ∧ Series Item used [] :=
  ⟨[], rfl, .nil⟩

/-- The first item of a series is read, and the rest of the series is left. -/
theorem Complete.series_cons (hc : Complete item (Spaced Item) n) {used : List Lexeme} {a : α}
    {as : List α} (h : Series Item used (a :: as)) (hn : used.length ≤ n) :
    ∃ left, Series Item left as ∧ left.length ≤ n ∧
    ∀ rest, item (used ++ rest) = .ok (a, left ++ rest) := by
  cases h with
  | @cons b ts left _ _ hb h hs =>
    rw [List.length_append] at hn
    refine ⟨left, hs, by omega, fun rest => ?_⟩
    rw [List.append_assoc]
    exact hc (.mk hb h) (by omega) (left ++ rest)

theorem many_sound (hs : Sound item (Spaced Item)) {bound : Nat} {ts rest : List Lexeme}
    {as : List α} (h : many starts item bound ts = .ok (as, rest)) :
    ∃ used b, ts = used ++ (b ++ rest) ∧ Series Item used as ∧ Blanks b := by
  induction bound generalizing ts as with
  | zero =>
    obtain ⟨rfl, rfl⟩ := pure_eq_ok_iff.1 h
    exact ⟨[], [], rfl, .nil, .nil⟩
  | succ bound ih =>
    rw [many, skipBlanks_peek_eq_ok_iff] at h
    obtain ⟨b, hb, hts⟩ := exists_blanks_append_skip ts
    have hstop : ∀ {us : List Lexeme}, (pure [] : Reader (List α)) (skip ts) = .ok (as, us) →
        ∃ used b, ts = used ++ (b ++ us) ∧ Series Item used as ∧ Blanks b := by
      intro us h
      obtain ⟨rfl, rfl⟩ := pure_eq_ok_iff.1 h
      exact ⟨[], b, hts, .nil, hb⟩
    cases hpeek : (skip ts).head?.map Lexeme.token with
    | none =>
      rw [hpeek] at h
      exact hstop h
    | some token =>
      rw [hpeek] at h
      dsimp only at h
      split at h
      · simp only [bind_eq_ok_iff, pure_eq_ok_iff] at h
        obtain ⟨a, mid, ha, as', _, has, rfl, rfl⟩ := h
        obtain ⟨used, b', hmid, hused, hb'⟩ := ih has
        obtain ⟨used', hskip, hused'⟩ := hs.series_cons ha ⟨used, hmid, hused⟩
        refine ⟨b ++ used', b', ?_, ?_, hb'⟩
        · rw [List.append_assoc, ← hskip, ← hts]
        · exact hused'.spaced hb (List.cons_ne_nil _ _)
      · exact hstop h

theorem many_complete (hc : Complete item (Spaced Item) n) (hbegins : Begins starts Item)
    (hblank : starts .blank = false) {used b : List Lexeme} {as : List α}
    (h : Series Item used as) (hn : used.length ≤ n) (hb : Blanks b) {r : Lexeme}
    (hr : r.token ≠ .blank) (hstop : starts r.token = false) {bound : Nat}
    (hbound : as.length < bound) (rest : List Lexeme) :
    many starts item bound (used ++ (b ++ r :: rest)) = .ok (as, r :: rest) := by
  induction bound generalizing used as with
  | zero => omega
  | succ bound ih =>
    rw [many, skipBlanks_peek_eq_ok_iff]
    cases h with
    | nil =>
      rw [List.nil_append, skip_append_cons hb hr, List.head?_cons, Option.map_some]
      dsimp only
      rw [hstop]
      rfl
    | @cons b' ts left a as hb' hitem hs =>
      obtain ⟨l, ts', rfl, hl⟩ := hbegins hitem
      have hne : l.token ≠ .blank := fun h => by rw [h, hblank] at hl; cases hl
      have hskip : skip (b' ++ l :: ts' ++ left ++ (b ++ r :: rest)) =
          l :: (ts' ++ (left ++ (b ++ r :: rest))) := by
        rw [List.append_assoc, List.append_assoc, List.cons_append, skip_append_cons hb' hne]
      rw [hskip, List.head?_cons, Option.map_some]
      dsimp only
      rw [if_pos hl]
      simp only [bind_eq_ok_iff, pure_eq_ok_iff]
      rw [List.length_append, List.length_append] at hn
      have hread := hc (.mk .nil hitem) (by rw [List.nil_append]; omega)
        (left ++ (b ++ r :: rest))
      rw [List.nil_append, List.cons_append] at hread
      rw [List.length_cons] at hbound
      exact ⟨a, _, hread, as, _, ih hs (by omega) (by omega), rfl, rfl⟩

theorem Begins.length_le (hbegins : Begins starts Item) {ts : List Lexeme} {as : List α}
    (h : Series Item ts as) :
    as.length ≤ ts.length := by
  induction h with
  | nil => exact le_rfl
  | cons hb h hs ih =>
    obtain ⟨l, ts', rfl, -⟩ := hbegins h
    simp only [List.length_append, List.length_cons]
    omega

theorem manyAvailable_sound (hs : Sound item (Spaced Item)) {ts rest : List Lexeme}
    {as : List α} (h : manyAvailable starts item ts = .ok (as, rest)) :
    ∃ used b, ts = used ++ (b ++ rest) ∧ Series Item used as ∧ Blanks b := by
  obtain ⟨us, _, hus, h⟩ := bind_eq_ok_iff.1 h
  obtain ⟨rfl, rfl⟩ := get_eq_ok_iff.1 hus
  exact many_sound hs h

theorem manyAvailable_complete (hc : Complete item (Spaced Item) n)
    (hbegins : Begins starts Item) (hblank : starts .blank = false) {used b : List Lexeme}
    {as : List α} (h : Series Item used as) (hn : used.length ≤ n) (hb : Blanks b) {r : Lexeme}
    (hr : r.token ≠ .blank) (hstop : starts r.token = false) (rest : List Lexeme) :
    manyAvailable starts item (used ++ (b ++ r :: rest)) = .ok (as, r :: rest) := by
  refine bind_eq_ok_iff.2 ⟨_, _, get_eq_ok_iff.2 ⟨rfl, rfl⟩, ?_⟩
  have hlen := hbegins.length_le h
  refine many_complete hc hbegins hblank h hn hb hr hstop ?_ rest
  simp only [List.length_append, List.length_cons]
  omega

/-- One item or more, up to a lexeme that cannot start one. -/
theorem items_sound (hs : Sound item (Spaced Item)) {ts m rest : List Lexeme} {a : α}
    {as : List α} (ha : item ts = .ok (a, m))
    (has : manyAvailable starts item m = .ok (as, rest)) :
    ∃ used, ts = used ++ rest ∧ Spaced (Trailed (Separated Item)) used (a :: as) := by
  obtain ⟨used, b, hm, hused, hb⟩ := manyAvailable_sound hs has
  obtain ⟨used', rfl, hused'⟩ := hs.series_cons ha ⟨used, hm, hused⟩
  obtain ⟨b₀, used, rfl, hb₀, hitems⟩ := hused'.separated (List.cons_ne_nil _ _)
  refine ⟨b₀ ++ (used ++ b), ?_, .mk hb₀ (.mk hitems hb)⟩
  simp only [List.append_assoc]

theorem items_complete (hc : Complete item (Spaced Item) n) (hbegins : Begins starts Item)
    (hblank : starts .blank = false) (hclosing : starts .closing = false) {used b : List Lexeme}
    {all : List α} {r : Lexeme} (h : Spaced (Separated Item) used all) (hn : used.length ≤ n)
    (hb : Blanks b) (hr : r.token = .closing) (rest : List Lexeme) :
    ∃ a as m, all = a :: as ∧ item (used ++ (b ++ r :: rest)) = .ok (a, m) ∧
      manyAvailable starts item m = .ok (as, r :: rest) := by
  obtain @⟨b₀, ts, _, hb₀, hitems⟩ := h
  cases all with
  | nil => exact (hitems.ne_nil rfl).elim
  | cons a as =>
    obtain ⟨left, hleft, hlen, hread⟩ := hc.series_cons (hitems.series hb₀) hn
    refine ⟨a, as, _, rfl, hread _, ?_⟩
    exact manyAvailable_complete hc hbegins hblank hleft hlen hb (hr ▸ nofun)
      (hr ▸ hclosing) rest

theorem group_sound {first : Expectation} (hs : Sound item (Spaced Item)) :
    Sound (group first item) (Spaced (Bracketed (Separated Item))) := by
  intro ts as rest h
  simp only [group, bind_eq_ok_iff, pure_eq_ok_iff, open_eq_ok_iff, close_eq_ok_iff] at h
  obtain ⟨l, m, ⟨b, hb, hl, rfl⟩, a, m', ha, tail, _, htail, stop, _,
      ⟨b'', r, hb'', hr, -, rfl⟩,
    rfl, rfl⟩ := h
  obtain ⟨_, rfl, ⟨hb₁, ⟨hitems, hb₂⟩⟩⟩ := items_sound hs ha htail
  refine ⟨_, ?_, .mk hb (.mk hl hb₁ hitems (hb₂.append hb'') hr)⟩
  simp only [List.append_assoc, List.cons_append, List.nil_append]

theorem group_complete {first : Expectation} (hc : Complete item (Spaced Item) n)
    (hbegins : Begins first.isMetBy Item) (hblank : first.isMetBy .blank = false)
    (hclosing : first.isMetBy .closing = false) :
    Complete (group first item) (Spaced (Bracketed (Separated Item))) n := by
  rintro _ as ⟨hb, ⟨hl, hb', hitems, hb'', hr⟩⟩ hn rest
  simp only [List.length_append, List.length_cons, List.length_nil] at hn
  obtain ⟨a, as, m, rfl, ha, has⟩ := items_complete hc hbegins hblank hclosing (.mk hb' hitems)
    (by rw [List.length_append]; omega) hb'' hr rest
  simp only [group, bind_eq_ok_iff, pure_eq_ok_iff, open_eq_ok_iff, close_eq_ok_iff]
  refine ⟨_, _, ⟨_, hb, hl, ?_⟩, a, m, ha, as, _, has, _, _,
    ⟨[], _, .nil, hr, rfl, rfl⟩, rfl, rfl⟩
  simp only [List.append_assoc, List.cons_append, List.nil_append]

end Rules

end PieChecker.Surface.Reader
