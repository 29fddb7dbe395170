import Mathlib.Algebra.BigOperators.Ring.List
import Mathlib.Computability.Language
import PieChecker.Proofs.Parsing.Grammar

set_option autoImplicit false

/-!
# The grammar over patterns of lexemes

A rule of the grammar tests one lexeme at a time against a pattern: a bracket, one keyword, a
name, any name or keyword. Here the grammar is a context-free grammar whose terminals are these
patterns. So it makes sense to ask which patterns can come next after some lexemes: the next
lexeme after `'` is tested for any name or keyword, and the next one in a list of operands for a
name and for some of the keywords, each by itself.
-/

namespace PieChecker.Surface.Grammar

/-- The rules of the grammar. Those for `separated item` are one item or more, with blanks
between them. -/
inductive Nonterminal where
  | blanks | site | typedBinder | compound | expression | topLevel | program | loneExpression
  | separated (item : Nonterminal)

/-- What the rules are made of: patterns and other rules. -/
abbrev Item := Symbol Expectation Nonterminal

namespace Nonterminal

/-- Operands, each with blanks before it. -/
def operands (count : Nat) : List Item :=
  (List.replicate count [.nonterminal blanks, .nonterminal expression]).flatten

/-- What a keyword that follows an opening bracket needs before the closing one. -/
def afterKeyword : Keyword → List Item
  | .unary _ => operands 1
  | .binary _ => operands 2
  | .ternary _ => operands 3
  | .quaternary _ => operands 4
  | .indVec => operands 5
  | .arrow => operands 1 ++ [.nonterminal blanks, .nonterminal (separated expression)]
  | .quant _ =>
    [.nonterminal blanks, .terminal .opening, .nonterminal blanks,
      .nonterminal (separated typedBinder), .nonterminal blanks, .terminal .closing] ++
        operands 1
  | .lambda =>
    [.nonterminal blanks, .terminal .opening, .nonterminal blanks,
      .nonterminal (separated site), .nonterminal blanks, .terminal .closing] ++ operands 1
  | .quote => [.nonterminal blanks, .terminal .nameOrKeyword]
  | .opener .claim | .opener .define => [.nonterminal blanks, .nonterminal site] ++ operands 1
  | .opener .checkSame => operands 3
  | .const _ | .todo => []

/-- What may follow the opening bracket where one of the keywords is needed: the keyword and all
that it needs. -/
def keywordForms (keywords : List Keyword) : List (List Item) :=
  keywords.map fun k => .terminal (.keyword k) :: afterKeyword k

/-- The alternatives of a rule. -/
def alternatives : Nonterminal → List (List Item)
  | blanks => [[], [.terminal .blank, .nonterminal blanks]]
  | site => [[.terminal .name]]
  | typedBinder =>
    [[.terminal .opening, .nonterminal blanks, .nonterminal site, .nonterminal blanks,
      .nonterminal expression, .nonterminal blanks, .terminal .closing]]
  | compound =>
    keywordForms Keyword.compounds ++
      [[.nonterminal expression, .nonterminal blanks, .nonterminal (separated expression)]]
  | expression =>
    [.terminal .opening, .nonterminal blanks, .nonterminal compound, .nonterminal blanks,
      .terminal .closing] :: keywordForms Keyword.atoms ++
      [[.terminal .tick, .terminal .nameOrKeyword], [.terminal .number], [.terminal .name]]
  | topLevel =>
    ((keywordForms Keyword.openers).map fun form =>
      [.terminal .opening, .nonterminal blanks] ++ form ++
        [.nonterminal blanks, .terminal .closing]) ++
      [[.nonterminal expression]]
  | program =>
    [[.nonterminal blanks, .nonterminal blanks],
      [.nonterminal blanks, .nonterminal (separated topLevel), .nonterminal blanks]]
  | loneExpression => [[.nonterminal blanks, .nonterminal expression, .nonterminal blanks]]
  | separated item =>
    [[.nonterminal item], [.nonterminal item, .nonterminal blanks,
      .nonterminal (separated item)]]

end Nonterminal

mutual

/-- The words of patterns that derive from a pattern or a rule. -/
inductive Derives : Item → List Expectation → Prop where
  | terminal (π : Expectation) : Derives (.terminal π) [π]
  | nonterminal {n : Nonterminal} {body : List Item} {w : List Expectation}
      (hbody : body ∈ n.alternatives)
    (h : DerivesAll body w) : Derives (.nonterminal n) w

/-- The words that derive from an alternative of a rule. -/
inductive DerivesAll : List Item → List Expectation → Prop where
  | nil : DerivesAll [] []
  | cons {item : Item} {body : List Item} {w w' : List Expectation} (h : Derives item w)
      (hs : DerivesAll body w') :
    DerivesAll (item :: body) (w ++ w')

end

/-- The language of all words that derive from a pattern or a rule. -/
def words (item : Item) : Language Expectation := {w | Derives item w}

/-- The language of a rule. -/
def Nonterminal.words (n : Nonterminal) : Language Expectation := Grammar.words (.nonterminal n)

/-- The language of one pattern. -/
def pattern (π : Expectation) : Language Expectation := {[π]}

/-! ## Equations between languages -/

theorem mem_pattern {π : Expectation} {w : List Expectation} :
    w ∈ pattern π ↔ w = [π] := Iff.rfl

theorem words_terminal (π : Expectation) : words (.terminal π) = pattern π := by
  ext w
  constructor
  · rintro ⟨⟩
    rfl
  · rintro rfl
    exact .terminal π

theorem derivesAll_iff {body : List Item} {w : List Expectation} :
    DerivesAll body w ↔ w ∈ (body.map words).prod := by
  induction body generalizing w with
  | nil =>
    constructor
    · rintro ⟨⟩
      rfl
    · rintro rfl
      exact .nil
  | cons item body ih =>
    rw [List.map_cons, List.prod_cons, Language.mem_mul]
    constructor
    · intro h
      cases h with
      | cons h hs => exact ⟨_, h, _, ih.1 hs, rfl⟩
    · rintro ⟨u, hu, v, hv, rfl⟩
      exact .cons hu (ih.2 hv)

theorem mem_sum {α : Type} {f : α → Language Expectation} {as : List α} {w : List Expectation} :
    w ∈ (as.map f).sum ↔ ∃ a ∈ as, w ∈ f a := by
  induction as with
  | nil => simp
  | cons a as ih =>
    rw [List.map_cons, List.sum_cons, Language.mem_add, ih, List.exists_mem_cons_iff]

/-- The language of a rule is the sum of its alternatives, and each of these a product. -/
theorem Nonterminal.words_eq (n : Nonterminal) :
    n.words = (n.alternatives.map fun body => (body.map Grammar.words).prod).sum := by
  ext w
  rw [mem_sum]
  constructor
  · intro h
    cases h with
    | nonterminal hbody h => exact ⟨_, hbody, derivesAll_iff.1 h⟩
  · rintro ⟨body, hbody, h⟩
    exact .nonterminal hbody (derivesAll_iff.2 h)

/-- The words that start with one of the keywords and go on as the keyword demands. -/
def keyed (keywords : List Keyword) (rest : Keyword → Language Expectation) :
    Language Expectation :=
  (keywords.map fun k => pattern (.keyword k) * rest k).sum

theorem mem_keyed {keywords : List Keyword} {rest : Keyword → Language Expectation}
    {w : List Expectation} :
    w ∈ keyed keywords rest ↔ ∃ k ∈ keywords, ∃ v ∈ rest k, w = .keyword k :: v := by
  rw [keyed, mem_sum]
  simp only [Language.mem_mul, mem_pattern, exists_eq_left, List.singleton_append, eq_comm]

theorem keyed_mul (keywords : List Keyword) (rest : Keyword → Language Expectation)
    (M : Language Expectation) :
    keyed keywords rest * M = keyed keywords fun k => rest k * M := by
  simp only [keyed, ← List.sum_map_mul_right, mul_assoc]

namespace Nonterminal

/-- The words that a keyword needs before the closing bracket. -/
def wordsAfter (k : Keyword) : Language Expectation := ((afterKeyword k).map Grammar.words).prod

/-- The words of operands. -/
def operandWords (count : Nat) : Language Expectation :=
  ((operands count).map Grammar.words).prod

theorem words_nonterminal (n : Nonterminal) : Grammar.words (.nonterminal n) = n.words := rfl

theorem sum_keywordForms (keywords : List Keyword) :
    ((keywordForms keywords).map fun body => (body.map Grammar.words).prod).sum =
      keyed keywords wordsAfter := by
  simp only [keywordForms, List.map_map, Function.comp_def, List.map_cons, List.prod_cons,
    words_terminal]
  rfl

theorem operandWords_zero : operandWords 0 = 1 := rfl

theorem operandWords_succ (count : Nat) :
    operandWords (count + 1) = blanks.words * (expression.words * operandWords count) := by
  simp [operandWords, operands, List.replicate_succ, words_nonterminal]

theorem wordsAfter_arrow :
    wordsAfter .arrow = blanks.words *
      (expression.words * (blanks.words * (separated expression).words)) := by
  simp [wordsAfter, afterKeyword, operands, words_nonterminal]

/-- A list in brackets and then an operand. -/
def groupWords (item : Nonterminal) : Language Expectation :=
  blanks.words * (pattern .opening *
    (blanks.words * ((separated item).words *
      (blanks.words * (pattern .closing * operandWords 1)))))

theorem wordsAfter_quant (q : Quantifier) : wordsAfter (.quant q) = groupWords typedBinder := by
  simp [wordsAfter, afterKeyword, operandWords, groupWords, words_nonterminal, words_terminal]

theorem wordsAfter_lambda : wordsAfter .lambda = groupWords site := by
  simp [wordsAfter, afterKeyword, operandWords, groupWords, words_nonterminal, words_terminal]

theorem wordsAfter_quote : wordsAfter .quote = blanks.words * pattern .nameOrKeyword := by
  simp [wordsAfter, afterKeyword, words_nonterminal, words_terminal]

/-- A binding site and then an operand, which both `claim` and `define` need. -/
def declarationWords : Language Expectation := blanks.words * (pattern .name * operandWords 1)

theorem words_blanks : blanks.words = KStar.kstar (pattern .blank) := by
  have h : blanks.words = pattern .blank * blanks.words + 1 := by
    nth_rewrite 1 [words_eq]
    simp [alternatives, words_terminal, words_nonterminal, add_comm]
  rw [Language.self_eq_mul_add_iff, mul_one] at h
  · exact h
  · nofun

theorem words_site : site.words = pattern .name := by
  rw [words_eq]
  simp [alternatives, words_terminal]

theorem wordsAfter_claim : wordsAfter (.opener .claim) = declarationWords := by
  simp [wordsAfter, afterKeyword, operandWords, declarationWords, words_nonterminal, words_site]

theorem wordsAfter_define : wordsAfter (.opener .define) = declarationWords := wordsAfter_claim

theorem words_typedBinder : typedBinder.words =
    pattern .opening * (blanks.words *
      (pattern .name * (blanks.words * (expression.words * (blanks.words *
      pattern .closing))))) := by
  rw [words_eq]
  simp [alternatives, words_terminal, words_nonterminal, words_site]

theorem words_compound : compound.words =
    keyed Keyword.compounds wordsAfter + expression.words *
      (blanks.words * (separated expression).words) := by
  rw [words_eq, alternatives, List.map_append, List.sum_append, sum_keywordForms]
  simp [words_nonterminal]

theorem words_expression : expression.words =
    pattern .opening * (blanks.words * (compound.words * (blanks.words * pattern .closing))) +
      keyed Keyword.atoms wordsAfter +
        (pattern .tick * pattern .nameOrKeyword + (pattern .number + pattern .name)) := by
  rw [words_eq, alternatives, List.map_append, List.sum_append, List.map_cons, List.sum_cons,
    sum_keywordForms]
  simp [words_terminal, words_nonterminal]

theorem words_topLevel : topLevel.words =
    pattern .opening * (blanks.words *
      (keyed Keyword.openers wordsAfter * (blanks.words * pattern .closing))) +
        expression.words := by
  rw [words_eq, alternatives, List.map_append, List.sum_append, ← sum_keywordForms,
    ← List.sum_map_mul_right, ← List.sum_map_mul_left, ← List.sum_map_mul_left]
  simp [words_terminal, words_nonterminal, Function.comp_def]

theorem words_separated (item : Nonterminal) :
    (separated item).words = item.words + item.words *
      (blanks.words * (separated item).words) := by
  nth_rewrite 1 [words_eq]
  simp [alternatives, words_nonterminal]

theorem words_program : program.words =
    blanks.words + blanks.words * ((separated topLevel).words * blanks.words) := by
  rw [words_eq]
  simp [alternatives, words_nonterminal, words_blanks]

theorem words_loneExpression :
    loneExpression.words = blanks.words * (expression.words * blanks.words) := by
  rw [words_eq]
  simp [alternatives, words_nonterminal]

end Nonterminal

end PieChecker.Surface.Grammar
