import Mathlib.Data.List.Nodup
import PieChecker.Proofs.Parsing.Expressions
import PieChecker.Surface.Peg

set_option autoImplicit false

/-!
# Parsing expressions and the record of failures

A parsing expression runs from some lexemes and with a record of the furthest failure. While it
follows a reader, the record is never ahead of it: it lies behind, or it holds what was tested
in vain at the next lexeme. An alternative that is tried after another one has failed further on
fails at once, and leaves the record as it is.

So a parsing expression simulates a reader: it takes the same lexemes with the same result, or
else it fails, and the record is what the reader refuses. Before a closing bracket less is
needed: a repetition that fails within an item does not fail itself, but stops before that item,
where the closing bracket is then tested in vain.
-/

namespace PieChecker.Surface

/-- The same place and, in any order, the same expectations. -/
def Refusal.Same (r s : Refusal) : Prop := r.rest = s.rest ∧ r.expected.Perm s.expected

/-- The record before the given lexemes are tested: nothing was tested in vain from there on, or
what was tested in vain there are the given expectations. -/
inductive Refusal.At (ts : List Lexeme) : List Expectation → Refusal → Prop where
  | behind {r : Refusal} (h : ts.length < r.rest.length) : At ts [] r
  | here {r : Refusal} {tested : List Expectation} (hrest : r.rest = ts)
      (hnodup : r.expected.Nodup)
    (hmem : ∀ π, π ∈ r.expected ↔ π ∈ tested) : At ts tested r

namespace Refusal

variable {ts us : List Lexeme} {tested tested' : List Expectation} {r : Refusal}
  {π : Expectation}

/-- Records that the lexemes were tested in vain for each of the expectations. -/
def recordAll (r : Refusal) (ts : List Lexeme) (tested : List Expectation) : Refusal :=
  tested.foldl (fun r π => r.record ts π) r

theorem recordAll_append (r : Refusal) (ts : List Lexeme) (tested tested' : List Expectation) :
    r.recordAll ts (tested ++ tested') = (r.recordAll ts tested).recordAll ts tested' :=
  List.foldl_append

theorem record_of_lt (h : r.rest.length < ts.length) (π : Expectation) : r.record ts π = r := by
  rw [record, if_neg (by omega), if_neg (by omega)]

theorem recordAll_of_lt (h : r.rest.length < ts.length) (tested : List Expectation) :
    r.recordAll ts tested = r := by
  induction tested with
  | nil => rfl
  | cons π tested ih => rw [recordAll, List.foldl_cons, record_of_lt h, ← recordAll, ih]

namespace At

theorem record (h : r.At ts tested) (π : Expectation) :
    (r.record ts π).At ts (π :: tested) := by
  cases h with
  | behind h =>
    rw [Refusal.record, if_pos h]
    exact .here rfl (List.nodup_singleton π) fun σ => Iff.rfl
  | here hrest hnodup hmem =>
    rw [Refusal.record, hrest, if_neg (lt_irrefl _), if_pos rfl]
    refine .here rfl hnodup.insert fun σ => ?_
    rw [List.mem_insert_iff, List.mem_cons, hmem]

theorem congr (h : r.At ts tested) (hmem : ∀ π, π ∈ tested ↔ π ∈ tested') :
    r.At ts tested' := by
  cases h with
  | behind h =>
    obtain rfl : tested' = [] := List.eq_nil_iff_forall_not_mem.2 fun π hπ =>
      nomatch (hmem π).2 hπ
    exact .behind h
  | here hrest hnodup hmem' => exact .here hrest hnodup fun π => (hmem' π).trans (hmem π)

theorem recordAll (h : r.At ts tested) (tested' : List Expectation) :
    (r.recordAll ts tested').At ts (tested ++ tested') := by
  induction tested' generalizing r tested with
  | nil => rwa [List.append_nil]
  | cons π tested' ih =>
    refine (ih (h.record π)).congr fun σ => ?_
    simp only [List.cons_append, List.mem_cons, List.mem_append, or_left_comm]

theorem length_le (h : r.At ts tested) : ts.length ≤ r.rest.length := by
  cases h with
  | behind h => exact h.le
  | here hrest => rw [hrest]

/-- The record lies behind all later lexemes. -/
theorem later (h : r.At ts tested) (hus : us.length < ts.length) : r.At us [] :=
  .behind (hus.trans_le h.length_le)

/-- Recording something again changes nothing. -/
theorem record_of_mem (h : r.At ts tested) (hπ : π ∈ tested) : r.record ts π = r := by
  cases h with
  | behind h => cases hπ
  | here hrest hnodup hmem =>
    rw [Refusal.record, hrest, if_neg (lt_irrefl _), if_pos rfl,
      List.insert_of_mem ((hmem π).2 hπ), ← hrest]

theorem same (h : r.At ts (π :: tested)) {expected : List Expectation} (hnodup : expected.Nodup)
    (hmem : ∀ σ, σ ∈ π :: tested ↔ σ ∈ expected) : r.Same ⟨ts, expected⟩ := by
  cases h with
  | here hrest hnodup' hmem' =>
    exact ⟨hrest, (List.perm_ext_iff_of_nodup hnodup' hnodup).2 fun σ =>
      (hmem' σ).trans (hmem σ)⟩

end At

/-- After the blanks nothing else than a blank and the given expectations was tested in vain. -/
def Ready (others : List Expectation) (ts : List Lexeme) (r : Refusal) : Prop :=
  (r.record (Reader.skip ts) .blank).At (Reader.skip ts) (.blank :: others)

theorem Ready.congr {others others' : List Expectation} (h : r.Ready others ts)
    (hmem : ∀ π, π ∈ others ↔ π ∈ others') : r.Ready others' ts :=
  At.congr h fun π => by rw [List.mem_cons, List.mem_cons, hmem]

theorem At.ready (h : r.At ts []) : r.Ready [] ts := by
  have hle : (Reader.skip ts).length ≤ ts.length := (List.dropWhile_suffix _).length_le
  rcases hle.lt_or_eq with hlt | heq
  · exact (h.later hlt).record .blank
  · have hskip : Reader.skip ts = ts := (List.dropWhile_suffix _).eq_of_length heq
    rw [Ready, hskip]
    exact h.record .blank

theorem At.ready_of_skip {others : List Expectation}
    (h : r.At (Reader.skip ts) (.blank :: others)) : r.Ready others ts := by
  rw [Ready, h.record_of_mem List.mem_cons_self]
  exact h

end Refusal

namespace Peg

open Reader (skip isMetBy_keyword isMetBy_opening isMetBy_closing)

variable {α β : Type} {p : Peg α} {q : Reader α} {all ts us rest : List Lexeme} {r r' : Refusal}
  {tested tested' others first : List Expectation} {π : Expectation} {n : Nat}

/-! ## Runs -/

theorem bind_run (p : Peg α) (f : α → Peg β) (ts : List Lexeme) (r : Refusal) :
    (p >>= f) ts r = match p ts r with
      | (some (a, rest), r') => f a rest r'
      | (none, r') => (none, r') := by
  simp only [bind, StateT.bind, OptionT.bind, OptionT.mk]
  rcases p ts r with ⟨_ | ⟨a, rest⟩, r'⟩ <;> rfl

theorem orElse_run (p p' : Peg α) (ts : List Lexeme) (r : Refusal) :
    (p <|> p') ts r = match p ts r with
      | (some x, r') => (some x, r')
      | (none, r') => p' ts r' := by
  simp only [HOrElse.hOrElse, OrElse.orElse, Alternative.orElse, StateT.orElse, OptionT.orElse,
    OptionT.mk, bind, StateT.bind]
  rcases p ts r with ⟨_ | x, r'⟩ <;> rfl

theorem bind_of_some {f : α → Peg β} {a : α} (h : p ts r = (some (a, rest), r')) :
    (p >>= f) ts r = f a rest r' := by
  rw [bind_run, h]

theorem bind_of_none {f : α → Peg β} (h : p ts r = (none, r')) :
    (p >>= f) ts r = (none, r') := by
  rw [bind_run, h]

theorem test_of_met {l : Lexeme} (h : π.isMetBy l.token = true) (ts : List Lexeme)
    (r : Refusal) :
    test π (l :: ts) r = (some (l, ts), r) := by
  have htest : test π (l :: ts) r = (if π.isMetBy l.token = true then do set ts; return l
      else fail π : Peg Lexeme) (l :: ts) r := rfl
  rw [htest, if_pos h]
  rfl

theorem test_of_not_met (h : ∀ l ∈ ts.head?, π.isMetBy l.token = false) (r : Refusal) :
    test π ts r = (none, r.record ts π) := by
  cases ts with
  | nil => rfl
  | cons l ts =>
    have htest : test π (l :: ts) r = (if π.isMetBy l.token = true then do set ts; return l
        else fail π : Peg Lexeme) (l :: ts) r := rfl
    rw [htest, if_neg (by simp [h l rfl])]
    rfl

theorem manyUpTo_blank_run (bound : Nat) (h : ts.length < bound) (r : Refusal) :
    ∃ as, manyUpTo (test .blank) bound ts r =
      (some (as, skip ts), r.record (skip ts) .blank) := by
  induction bound generalizing ts with
  | zero => omega
  | succ bound ih =>
    by_cases hblank : ∃ l us, ts = l :: us ∧ l.token = .blank
    · obtain ⟨l, us, rfl, hl⟩ := hblank
      obtain ⟨as, has⟩ := ih (Nat.lt_of_succ_lt_succ h)
      have hskip : skip (l :: us) = skip us := List.dropWhile_cons_of_pos (by simp [hl])
      refine ⟨l :: as, ?_⟩
      rw [manyUpTo, orElse_run, bind_of_some (test_of_met (by rw [hl]; rfl) us r),
        bind_of_some has, hskip]
      rfl
    · have hne : ∀ l ∈ ts.head?, l.token ≠ .blank := fun l hl hblank' =>
        hblank ⟨l, _, (List.head?_eq_some_iff.1 hl).choose_spec, hblank'⟩
      refine ⟨[], ?_⟩
      have htest : test .blank ts r = (none, r.record ts .blank) :=
        test_of_not_met (fun l hl => by cases ht : l.token <;> simp_all [Expectation.isMetBy]) r
      rw [manyUpTo, orElse_run, bind_of_none htest, Reader.skip_of_head? hne]
      rfl

/-- Blanks are skipped, and then one more is tested in vain. -/
theorem blanks_run (ts : List Lexeme) (r : Refusal) :
    blanks ts r = (some ((), skip ts), r.record (skip ts) .blank) := by
  obtain ⟨as, has⟩ := manyUpTo_blank_run (ts.length + 1) (Nat.lt_succ_self _) r
  have hmany : many (test .blank) ts r = manyUpTo (test .blank) (ts.length + 1) ts r := rfl
  rw [blanks, bind_of_some (hmany.trans has)]
  rfl

theorem manyUpTo_ne_none (item : Peg α) (bound : Nat) (ts : List Lexeme) (r r' : Refusal) :
    manyUpTo item bound ts r ≠ (none, r') := by
  cases bound with
  | zero => exact nofun
  | succ bound =>
    rw [manyUpTo, orElse_run]
    split
    · exact nofun
    · exact nofun

/-! ## Alternatives -/

/-- The lexemes are tested in vain for these expectations, and for nothing else. -/
def Declines (p : Peg α) (ts : List Lexeme) (tested : List Expectation) : Prop :=
  ∀ r, p ts r = (none, r.recordAll ts tested)

/-- The record is kept if it is of a failure less than the given number of lexemes before the
end, since this expression fails before that. -/
def FailsBefore (n : Nat) (p : Peg α) (ts : List Lexeme) : Prop :=
  ∀ r, r.rest.length < n → p ts r = (none, r)

theorem declines_test (h : ∀ l ∈ ts.head?, π.isMetBy l.token = false) :
    Declines (test π) ts [π] :=
  fun r => test_of_not_met h r

theorem Declines.bind (h : Declines p ts tested) (f : α → Peg β) :
    Declines (p >>= f) ts tested :=
  fun r => bind_of_none (h r)

theorem Declines.failsBefore (h : Declines p ts tested) : FailsBefore ts.length p ts := by
  intro r hr
  rw [h r, Refusal.recordAll_of_lt hr]

theorem orElse_of_declines {p' : Peg α} (h : Declines p ts tested) (r : Refusal) :
    (p <|> p') ts r = p' ts (r.recordAll ts tested) := by
  rw [orElse_run, h r]

/-- No other alternative matters to one that fails further on. -/
theorem orElse_of_failsBefore {p' : Peg α} (h : FailsBefore n p' ts)
    (hlater : ∀ r', p ts r = (none, r') → r'.rest.length < n) : (p <|> p') ts r = p ts r := by
  rw [orElse_run]
  generalize hrun : p ts r = o
  rcases o with ⟨_ | x, r'⟩
  · exact h r' (hlater r' hrun)
  · rfl

theorem Declines.orElse {p' : Peg α} (h : Declines p ts tested) (h' : Declines p' ts tested') :
    Declines (p <|> p') ts (tested ++ tested') := by
  intro r
  rw [orElse_of_declines h, h', Refusal.recordAll_append]

theorem FailsBefore.mono {m : Nat} (h : FailsBefore n p ts) (hm : m ≤ n) : FailsBefore m p ts :=
  fun r hr => h r (hr.trans_le hm)

theorem FailsBefore.bind (h : FailsBefore n p ts) (f : α → Peg β) :
    FailsBefore n (p >>= f) ts :=
  fun r hr => bind_of_none (h r hr)

theorem FailsBefore.orElse {p' : Peg α} (h : FailsBefore n p ts) (h' : FailsBefore n p' ts) :
    FailsBefore n (p <|> p') ts := by
  intro r hr
  rw [orElse_run, h r hr]
  exact h' r hr

section Keywords

variable {e : Peg Expr} {k : Keyword} {keywords : List Keyword}

theorem declines_keyed (h : ∀ l ∈ ts.head?, l.token ≠ .keyword k) :
    Declines (keyed e k) ts [.keyword k] :=
  (declines_test fun l hl => by
    rw [← Bool.not_eq_true, isMetBy_keyword]
    exact h l hl).bind _

theorem declines_keywords (h : ∀ l ∈ ts.head?, ∀ k ∈ keywords, l.token ≠ .keyword k) :
    Declines (firstOf (keywords.map (keyed e))) ts (keywords.map .keyword) := by
  induction keywords with
  | nil => exact fun _ => rfl
  | cons k keywords ih =>
    have hk : Declines (keyed e k) ts [.keyword k] :=
      declines_keyed fun l hl => h l hl k List.mem_cons_self
    exact hk.orElse (ih fun l hl k' hk' => h l hl k' (List.mem_cons_of_mem k hk'))

/-- The alternative of the next keyword is taken, after the ones that are listed before it. -/
theorem firstOf_keywords_run {l : Lexeme} (hl : l.token = .keyword k) (hk : k ∈ keywords)
    (hnodup : keywords.Nodup)
    (h : ∀ tested r', afterKeyword e k us (r.recordAll (l :: us) tested) = (none, r') →
      r'.rest.length ≤ us.length) :
    ∃ tested, firstOf (keywords.map (keyed e)) (l :: us) r =
      afterKeyword e k us (r.recordAll (l :: us) tested) := by
  induction keywords generalizing r with
  | nil => cases hk
  | cons k' keywords ih =>
    obtain ⟨hnot, hnodup⟩ := List.nodup_cons.1 hnodup
    by_cases heq : k' = k
    · subst heq
      have hrun : keyed e k' (l :: us) r = afterKeyword e k' us r :=
        bind_of_some (test_of_met ((isMetBy_keyword _ _).2 hl) us r)
      have hothers : Declines (firstOf (keywords.map (keyed e))) (l :: us)
          (keywords.map .keyword) := by
        refine declines_keywords fun l' hl' k hk htoken => ?_
        cases hl'
        rw [hl, Token.keyword.injEq] at htoken
        exact hnot (htoken ▸ hk)
      refine ⟨[], ?_⟩
      rw [List.map_cons, firstOf,
        orElse_of_failsBefore hothers.failsBefore fun r' hr' => ?_, hrun]
      · rfl
      · exact Nat.lt_succ_of_le (h [] r' (hrun ▸ hr'))
    · have hdeclines : Declines (keyed e k') (l :: us) [.keyword k'] := by
        refine declines_keyed fun l' hl' htoken => heq ?_
        cases hl'
        rw [hl, Token.keyword.injEq] at htoken
        exact htoken.symm
      obtain ⟨tested, hrun⟩ := ih (List.mem_of_ne_of_mem (Ne.symm heq) hk) hnodup
        fun tested => h (.keyword k' :: tested)
      refine ⟨.keyword k' :: tested, ?_⟩
      rw [List.map_cons, firstOf, orElse_of_declines hdeclines]
      exact hrun

end Keywords

/-! ## Simulation -/

/-- The parsing expression matches with the result of the reader, and the record lies behind, or
it fails and the record is what the reader refuses. Either way they stay within the given
lexemes. -/
inductive Agrees (all : List Lexeme) :
    Option (α × List Lexeme) × Refusal → Except Refusal (α × List Lexeme) → Prop where
  | matched {a : α} {rest : List Lexeme} {r : Refusal} (hrest : rest <:+ all)
      (hr : r.At rest []) :
    Agrees all (some (a, rest), r) (.ok (a, rest))
  | failed {r refusal : Refusal} (hrest : refusal.rest <:+ all) (hr : r.Same refusal) :
    Agrees all (none, r) (.error refusal)

/-- Agreement up to what comes after blanks: the other expectations could have come there too. A
repetition may also have stopped before an item that the reader refuses. -/
inductive AgreesBefore (others : List Expectation) (all : List Lexeme) :
    Option (α × List Lexeme) × Refusal → Except Refusal (α × List Lexeme) → Prop where
  | matched {a : α} {rest rest' : List Lexeme} {r : Refusal} (hrest : rest' <:+ all)
    (hskip : skip rest = skip rest') (hr : r.Ready others rest) :
    AgreesBefore others all (some (a, rest), r) (.ok (a, rest'))
  | stuck {a : α} {rest us : List Lexeme} {l : Lexeme} {r refusal : Refusal}
    (hskip : skip rest = l :: us) (hl : l.token ≠ .closing) (hus : us <:+ all)
    (hrest : refusal.rest <:+ us) (hr : r.Same refusal) :
    AgreesBefore others all (some (a, rest), r) (.error refusal)
  | failed {r refusal : Refusal} (hrest : refusal.rest <:+ all) (hr : r.Same refusal) :
    AgreesBefore others all (none, r) (.error refusal)

section Agreement

variable {o : Option (α × List Lexeme) × Refusal} {x : Except Refusal (α × List Lexeme)}

theorem Agrees.mono (h : Agrees us o x) (hus : us <:+ ts) : Agrees ts o x := by
  cases h with
  | matched hrest hr => exact .matched (hrest.trans hus) hr
  | failed hrest hr => exact .failed (hrest.trans hus) hr

theorem AgreesBefore.mono (h : AgreesBefore others us o x) (hus : us <:+ ts) :
    AgreesBefore others ts o x := by
  cases h with
  | matched hrest hskip hr => exact .matched (hrest.trans hus) hskip hr
  | stuck hskip hl hus' hrest hr => exact .stuck hskip hl (hus'.trans hus) hrest hr
  | failed hrest hr => exact .failed (hrest.trans hus) hr

theorem Agrees.length_le (h : Agrees ts o x) (ho : o = (none, r)) :
    r.rest.length ≤ ts.length := by
  subst ho
  cases h with
  | failed hrest hr => exact hr.1 ▸ hrest.length_le

theorem AgreesBefore.length_le (h : AgreesBefore others ts o x) (ho : o = (none, r)) :
    r.rest.length ≤ ts.length := by
  subst ho
  cases h with
  | failed hrest hr => exact hr.1 ▸ hrest.length_le

/-- The first alternative fails further on than the other ones, so they do not matter. -/
theorem Agrees.orElse {p' : Peg α} (h : Agrees us (p ts r) x) (h' : FailsBefore n p' ts)
    (hus : us.length < n) : Agrees us ((p <|> p') ts r) x := by
  rwa [orElse_of_failsBefore h' fun r' hr' => (h.length_le hr').trans_lt hus]

theorem Agrees.after {p' : Peg α} (h : Agrees us (p ts (r.recordAll ts tested)) x)
    (h' : Declines p' ts tested) : Agrees us ((p' <|> p) ts r) x := by
  rwa [orElse_of_declines h']

theorem AgreesBefore.orElse {p' : Peg α} (h : AgreesBefore others us (p ts r) x)
    (h' : FailsBefore n p' ts) (hus : us.length < n) :
    AgreesBefore others us ((p <|> p') ts r) x := by
  rwa [orElse_of_failsBefore h' fun r' hr' => (h.length_le hr').trans_lt hus]

theorem Agrees.before (h : Agrees ts o x) : AgreesBefore [] ts o x := by
  cases h with
  | matched hrest hr => exact .matched hrest rfl hr.ready
  | failed hrest hr => exact .failed hrest hr

theorem AgreesBefore.suffix_of_ok {a : α} (h : AgreesBefore others ts o (.ok (a, rest))) :
    rest <:+ ts := by
  cases h with
  | matched hrest => exact hrest

/-- A reader refuses lexemes that are tested in vain for all that it expects. -/
theorem Declines.agrees (h : Declines p ts tested) (hr : r.At ts (π :: others))
    {expected : List Expectation} (hq : q ts = .error ⟨ts, expected⟩)
    (hmem : ∀ σ, σ ∈ π :: others ++ tested ↔ σ ∈ expected) (hnodup : expected.Nodup) :
    Agrees ts (p ts r) (q ts) := by
  rw [h r, hq]
  exact .failed (List.suffix_refl ts) ((hr.recordAll tested).same hnodup hmem)

end Agreement

theorem Agrees.bind {f : α → Peg β} {g : α → Reader β} (h : Agrees all (p ts r) (q us))
    (hf : ∀ a rest r', rest <:+ all → r'.At rest [] → Agrees all (f a rest r') (g a rest)) :
    Agrees all ((p >>= f) ts r) ((q >>= g) us) := by
  rw [bind_run, Reader.bind_run]
  generalize p ts r = o at h ⊢
  generalize q us = x at h ⊢
  cases h with
  | matched hrest hr => exact hf _ _ _ hrest hr
  | failed hrest hr => exact .failed hrest hr

theorem Agrees.bindBefore {f : α → Peg β} {g : α → Reader β} (h : Agrees all (p ts r) (q us))
    (hf : ∀ a rest r', rest <:+ all → r'.At rest [] →
      AgreesBefore others all (f a rest r') (g a rest)) :
    AgreesBefore others all ((p >>= f) ts r) ((q >>= g) us) := by
  rw [bind_run, Reader.bind_run]
  generalize p ts r = o at h ⊢
  generalize q us = x at h ⊢
  cases h with
  | matched hrest hr => exact hf _ _ _ hrest hr
  | failed hrest hr => exact .failed hrest hr

theorem AgreesBefore.map {g : α → β} (h : AgreesBefore others all (p ts r) (q us)) :
    AgreesBefore others all ((do return g (← p) : Peg β) ts r)
      ((do return g (← q) : Reader β) us) := by
  rw [bind_run, Reader.bind_run]
  generalize p ts r = o at h ⊢
  generalize q us = x at h ⊢
  cases h with
  | matched hrest hskip hr => exact .matched hrest hskip hr
  | stuck hskip hl hus hrest hr => exact .stuck hskip hl hus hrest hr
  | failed hrest hr => exact .failed hrest hr

/-- The parsing expression agrees with the reader on all lexemes up to a given number, where the
record lies behind. -/
def Simulates (n : Nat) (p : Peg α) (q : Reader α) : Prop :=
  ∀ ⦃ts : List Lexeme⦄ ⦃r : Refusal⦄, ts.length < n → r.At ts [] → Agrees ts (p ts r) (q ts)

/-- So it does up to what comes after blanks. -/
def SimulatesBefore (n : Nat) (others : List Expectation) (p : Peg α) (q : Reader α) : Prop :=
  ∀ ⦃ts : List Lexeme⦄ ⦃r : Refusal⦄, ts.length < n → r.At ts [] →
    AgreesBefore others ts (p ts r) (q ts)

theorem Simulates.pure (n : Nat) (a : α) :
    Simulates n (Pure.pure a : Peg α) (Pure.pure a : Reader α) :=
  fun ts _ _ hr => .matched (List.suffix_refl ts) hr

theorem Simulates.bind {f : α → Peg β} {g : α → Reader β} (h : Simulates n p q)
    (hf : ∀ a, Simulates n (f a) (g a)) : Simulates n (p >>= f) (q >>= g) := fun _ _ hts hr =>
  (h hts hr).bind fun a _ _ hrest hr' => (hf a (hrest.length_le.trans_lt hts) hr').mono hrest

theorem Simulates.bindBefore {f : α → Peg β} {g : α → Reader β} (h : Simulates n p q)
    (hf : ∀ a, SimulatesBefore n others (f a) (g a)) :
    SimulatesBefore n others (p >>= f) (q >>= g) := fun _ _ hts hr =>
  (h hts hr).bindBefore fun a _ _ hrest hr' =>
    (hf a (hrest.length_le.trans_lt hts) hr').mono hrest

theorem SimulatesBefore.map (h : SimulatesBefore n others p q) (g : α → β) :
    SimulatesBefore n others (do return g (← p)) (do return g (← q)) :=
  fun _ _ hts hr => (h hts hr).map

theorem Simulates.before (h : Simulates n p q) : SimulatesBefore n [] p q :=
  fun _ _ hts hr => (h hts hr).before

/-! ## Single lexemes -/

theorem starts_or_not (starts : Token → Bool) (us : List Lexeme) :
    (∃ l us', us = l :: us' ∧ starts l.token = true) ∨ ∀ l ∈ us.head?,
    starts l.token = false := by
  rcases us with _ | ⟨l, us⟩
  · exact .inr nofun
  · cases h : starts l.token with
    | true => exact .inl ⟨l, us, rfl, h⟩
    | false => exact .inr fun l' hl' => by cases hl'; exact h

theorem agrees_take (hr : r.At ts others) (hnodup : (others ++ [π]).Nodup) :
    Agrees ts (test π ts r) (Reader.take [π] others ts) := by
  rcases starts_or_not π.isMetBy ts with ⟨l, us, rfl, hl⟩ | hnot
  · have hread : Reader.take [π] others (l :: us) = .ok (l, us) :=
      Reader.take_eq_ok_iff.2 ⟨rfl, by rw [List.any_cons, hl]; rfl⟩
    rw [test_of_met hl, hread]
    exact .matched (List.suffix_cons l us) (hr.later (Nat.lt_succ_self _))
  · have hread : Reader.take [π] others ts = .error ⟨ts, others ++ [π]⟩ := by
      cases ts with
      | nil => rfl
      | cons l ts => exact if_neg (by simp [hnot l rfl])
    rw [test_of_not_met hnot, hread]
    refine .failed (List.suffix_refl ts) ((hr.record π).same hnodup fun σ => ?_)
    rw [List.mem_append, List.mem_singleton, List.mem_cons, or_comm]

theorem agrees_takeNext (hr : r.Ready others ts) (hnodup : (.blank :: others ++ [π]).Nodup) :
    Agrees (skip ts) ((do blanks; test π) ts r) (Reader.takeNext π others ts) := by
  rw [bind_of_some (blanks_run ts r)]
  exact agrees_take hr hnodup

theorem simulates_takeNext (n : Nat) (hπ : π ≠ .blank) :
    Simulates n (do blanks; test π) (Reader.takeNext π []) := fun _ _ _ hr =>
  (agrees_takeNext hr.ready (by simp [hπ.symm])).mono (List.dropWhile_suffix _)

theorem simulates_site (n : Nat) : Simulates n (do blanks; site) Reader.site := by
  have h : Simulates n (do blanks; test .name) (Reader.takeNext .name []) :=
    simulates_takeNext n nofun
  have hsite := h.bind fun l => .pure n (⟨l.span, l.text⟩ : Site)
  rwa [bind_assoc] at hsite

/-- What comes before a closing bracket, and that bracket. -/
theorem AgreesBefore.close (h : AgreesBefore others all (p ts r) (q us))
    (hnodup : (Expectation.blank :: others ++ [Expectation.closing]).Nodup) :
    Agrees all ((do let a ← p; blanks; let _ ← test .closing; return a : Peg α) ts r)
      ((do let a ← q; let _ ← Reader.close others; return a : Reader α) us) := by
  rw [bind_run, Reader.bind_run]
  generalize p ts r = o at h ⊢
  generalize q us = x at h ⊢
  cases h with
  | @matched a rest rest' r hrest hskip hr =>
    have hall : skip rest <:+ all := hskip ▸ (List.dropWhile_suffix _).trans hrest
    have hread := ((agrees_takeNext hr hnodup).mono hall).bind
      fun _ rest r' hrest hr' => (.matched hrest hr' :
        Agrees all ((return a : Peg α) rest r') ((return a : Reader α) rest))
    have hclose (us : List Lexeme) :
        (do let _ ← Reader.close others; return a : Reader α) us =
          (do let _ ← Reader.take [.closing] (.blank :: others); return a : Reader α)
          (skip us) := by
      simp only [Reader.close, Reader.takeNext, bind_assoc, pure_bind]
      rfl
    rw [bind_assoc] at hread
    show Agrees all ((do blanks; let _ ← test .closing; return a : Peg α) rest r)
      ((do let _ ← Reader.close others; return a : Reader α) rest')
    rw [hclose, ← hskip]
    exact hread
  | @stuck a rest us l r refusal hskip hl hus hrest hr =>
    have hlt : r.rest.length < (l :: us).length := Nat.lt_succ_of_le (hr.1 ▸ hrest.length_le)
    have hnot : ∀ l' ∈ (l :: us).head?, Expectation.closing.isMetBy l'.token = false := by
      rintro _ ⟨⟩
      rw [← Bool.not_eq_true, isMetBy_closing]
      exact hl
    have hrun : (do blanks; let _ ← test .closing; return a : Peg α) rest r = (none, r) := by
      rw [bind_of_some (blanks_run rest r), hskip, r.record_of_lt hlt,
        bind_of_none (test_of_not_met hnot r), r.record_of_lt hlt]
    show Agrees all ((do blanks; let _ ← test .closing; return a : Peg α) rest r)
      (.error refusal)
    rw [hrun]
    exact .failed (hrest.trans hus) hr
  | failed hrest hr => exact .failed hrest hr

theorem SimulatesBefore.close (h : SimulatesBefore n others p q)
    (hnodup : (Expectation.blank :: others ++ [Expectation.closing]).Nodup) :
    Simulates n (do let a ← p; blanks; let _ ← test .closing; return a)
      (do let a ← q; let _ ← Reader.close others; return a) :=
  fun _ _ hts hr => (h hts hr).close hnodup

/-- After an opening bracket. -/
theorem bracketed_run {l : Lexeme} (hl : l.token = .opening) (us : List Lexeme) (r : Refusal) :
    bracketed p (l :: us) r =
      ((do blanks; p) >>= fun a => do blanks; let _ ← test .closing; return a : Peg α)
        us r := by
  rw [bracketed, bind_of_some (test_of_met (by rw [hl]; rfl) us r), bind_assoc]

theorem SimulatesBefore.agrees_bracketed (h : SimulatesBefore n others (do blanks; p) q)
    (hnodup : (Expectation.blank :: others ++ [Expectation.closing]).Nodup) {l : Lexeme}
    (hl : l.token = .opening) (hus : us.length < n) (hr : r.At (l :: us) tested) :
    Agrees us (bracketed p (l :: us) r)
      ((do let a ← q; let _ ← Reader.close others; return a : Reader α) us) := by
  rw [bracketed_run hl]
  exact h.close hnodup hus (hr.later (Nat.lt_succ_self _))

theorem SimulatesBefore.bracketed (h : SimulatesBefore n others (do blanks; p) q)
    (hnodup : (Expectation.blank :: others ++ [Expectation.closing]).Nodup) :
    Simulates n (do blanks; bracketed p) (do
      let _ ← Reader.takeNext .opening []
      let a ← q
      let _ ← Reader.close others
      return a) := by
  have hopening : Simulates n (do blanks; test .opening) (Reader.takeNext .opening []) :=
    simulates_takeNext n nofun
  have hall := hopening.bind fun _ => h.close hnodup
  simpa only [Peg.bracketed, bind_assoc] using hall

theorem failsBefore_bracketed {l : Lexeme} (hl : l.token = .opening)
    (h : FailsBefore (skip us).length p (skip us)) :
    FailsBefore (skip us).length (bracketed p) (l :: us) := by
  intro r hr
  rw [bracketed_run hl, bind_assoc, bind_of_some (blanks_run us r), r.record_of_lt hr,
    bind_of_none (h r hr)]

theorem declines_bracketed (h : ∀ l ∈ ts.head?, l.token ≠ .opening) :
    Declines (bracketed p) ts [.opening] :=
  (declines_test fun l hl => by
    rw [← Bool.not_eq_true, isMetBy_opening]
    exact h l hl).bind _

/-! ## Repetitions -/

/-- The parsing expression of an item and the reader of an item with blanks before it agree, and
they start with the same lexemes. -/
structure ItemsAgree (n : Nat) (p : Peg α) (q : Reader α) (starts : Token → Bool)
    (first : List Expectation) : Prop where
  started : ∀ ⦃l : Lexeme⦄ ⦃us : List Lexeme⦄ ⦃r : Refusal⦄, starts l.token = true →
    (l :: us).length < n → r.At (l :: us) [.blank] → Agrees us (p (l :: us) r) (q (l :: us))
  declines : ∀ ⦃us : List Lexeme⦄, us.length < n → (∀ l ∈ us.head?, starts l.token = false) →
    Declines p us first
  refuses : ∀ ⦃us : List Lexeme⦄, us.length < n → skip us = us →
    (∀ l ∈ us.head?, starts l.token = false) → q us = .error ⟨us, .blank :: first⟩
  skips : ∀ ts, q ts = q (skip ts)
  closing : starts .closing = false
  nodup : (Expectation.blank :: first ++ [Expectation.closing]).Nodup

namespace ItemsAgree

variable {starts : Token → Bool}

theorem agrees (h : ItemsAgree n p q starts first) (hus : us.length < n) (hskip : skip us = us)
    (hr : r.At us [.blank]) : Agrees us (p us r) (q us) := by
  rcases starts_or_not starts us with ⟨l, us, rfl, hl⟩ | hnot
  · exact (h.started hl hus hr).mono (List.suffix_cons l us)
  · exact (h.declines hus hnot).agrees hr (h.refuses hus hskip hnot) (fun _ => Iff.rfl)
      (List.Nodup.of_append_left h.nodup)

theorem simulates (h : ItemsAgree n p q starts first) : Simulates n (do blanks; p) q := by
  intro ts r hts hr
  have hsuffix : skip ts <:+ ts := List.dropWhile_suffix _
  rw [bind_of_some (blanks_run ts r), h.skips ts]
  exact (h.agrees (hsuffix.length_le.trans_lt hts) (Reader.skip_skip ts) hr.ready).mono hsuffix

/-- A repetition matches as many items as are read. Where the reader refuses an item, it stops
before that item. -/
theorem agrees_many (h : ItemsAgree n p q starts first) {bound bound' : Nat}
    (hts : ts.length < n) (hbound : ts.length < bound) (hbound' : ts.length ≤ bound')
    (hr : r.At ts []) :
    AgreesBefore first ts (manyUpTo (do blanks; p) bound ts r)
      (Reader.many starts q bound' ts) := by
  induction bound generalizing ts r bound' with
  | zero => omega
  | succ bound ih =>
    have hsuffix : skip ts <:+ ts := List.dropWhile_suffix _
    have hready := hr.ready
    rw [Refusal.Ready] at hready
    rw [manyUpTo, orElse_run]
    rcases starts_or_not starts (skip ts) with ⟨l, us, hus, hl⟩ | hnot
    · have hrun : (do blanks; p : Peg α) ts r = p (l :: us) (r.record (l :: us) .blank) := by
        rw [bind_of_some (blanks_run ts r), hus]
      rw [hus] at hsuffix hready
      have hlen := hsuffix.length_le
      have hitem := h.started hl (hlen.trans_lt hts) hready
      rw [List.length_cons] at hlen
      obtain ⟨bound', rfl⟩ : ∃ b, bound' = b + 1 := ⟨bound' - 1, by omega⟩
      have hread : Reader.many starts q (bound' + 1) ts =
          (do return (← q) :: (← Reader.many starts q bound') : Reader (List α)) (l :: us) := by
        rw [Reader.many, Reader.skipBlanks_peek, hus, List.head?_cons, Option.map_some]
        exact congrFun (if_pos hl) _
      rw [hread, Reader.bind_run]
      generalize hp : p (l :: us) (r.record (l :: us) .blank) = o at hitem
      generalize q (l :: us) = x at hitem ⊢
      have hus' : us <:+ ts := (List.suffix_cons l us).trans hsuffix
      cases hitem with
      | @matched a rest r' hrest hr' =>
        have hrest' := hrest.length_le
        have hleft : AgreesBefore first rest (manyUpTo (do blanks; p) bound rest r')
            (Reader.many starts q bound' rest) := ih (by omega) (by omega) (by omega) hr'
        have hmany := hleft.map (g := (a :: ·))
        rw [bind_of_some (hrun.trans hp)]
        generalize hrun' : manyUpTo (do blanks; p) bound rest r' = o' at hmany
        obtain ⟨_ | ⟨as, rest'⟩, r''⟩ := o'
        · exact (manyUpTo_ne_none _ _ _ _ _ hrun').elim
        · rw [bind_of_some hrun'] at hmany ⊢
          exact hmany.mono (hrest.trans hus')
      | failed hrest hr' =>
        rw [bind_of_none (hrun.trans hp)]
        refine .stuck hus (fun hclosing => ?_) hus' hrest hr'
        rw [hclosing, h.closing] at hl
        cases hl
    · have hrun : (do blanks; p : Peg α) ts r =
          (none, (r.record (skip ts) .blank).recordAll (skip ts) first) := by
        rw [bind_of_some (blanks_run ts r), h.declines (hsuffix.length_le.trans_lt hts) hnot]
      have hread : Reader.many starts q bound' ts = .ok ([], skip ts) := by
        cases bound' with
        | zero =>
          obtain rfl := List.eq_nil_of_length_eq_zero (Nat.le_zero.1 hbound')
          rfl
        | succ bound' =>
          rw [Reader.many, Reader.skipBlanks_peek]
          cases hskip : skip ts with
          | nil => rfl
          | cons l us =>
            exact congrFun (if_neg (by simp [hnot l (by rw [hskip]; rfl)])) _
      rw [bind_of_none hrun, hread]
      exact .matched hsuffix (Reader.skip_skip ts).symm (hready.recordAll first).ready_of_skip

/-- One item or more, with blanks before them. -/
theorem simulates_separated (h : ItemsAgree n p q starts first) :
    SimulatesBefore n first (do blanks; separated p)
      (do let a ← q; let as ← Reader.manyAvailable starts q; return a :: as) := by
  intro ts r hts hr
  have hsuffix : skip ts <:+ ts := List.dropWhile_suffix _
  have hlen := hsuffix.length_le.trans_lt hts
  have hskips : (do let a ← q; let as ← Reader.manyAvailable starts q; return a :: as :
      Reader (List α)) ts =
        (do let a ← q; let as ← Reader.manyAvailable starts q; return a :: as :
      Reader (List α)) (skip ts) := by
    rw [Reader.bind_run, Reader.bind_run, h.skips ts]
  rw [bind_of_some (blanks_run ts r), hskips]
  refine .mono ?_ hsuffix
  refine (h.agrees hlen (Reader.skip_skip ts) hr.ready).bindBefore fun a rest r' hrest hr' => ?_
  have hmany := h.agrees_many (hrest.length_le.trans_lt hlen) (Nat.lt_succ_self _) le_rfl hr'
  exact (AgreesBefore.map (p := many do blanks; p) (q := Reader.manyAvailable starts q)
    (g := (a :: ·)) hmany).mono hrest

end ItemsAgree

end Peg

end PieChecker.Surface
