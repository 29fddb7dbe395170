import PieChecker.Proofs.Lexing.Scanning
import PieChecker.Text.Span

set_option autoImplicit false

/-!
# Cuts between characters

A text can be cut at a position exactly if so many bytes are those of a beginning of the text.
What lies between two such cuts is the part of the text at a span.
-/

namespace PieChecker

open Text Lexer

/-- A text can be cut after any of its beginnings. -/
theorem Text.cutAt?_byteSize (cs ds : List Char) :
    cutAt? (byteSize cs) (cs ++ ds) = some (cs, ds) := by
  induction cs with
  | nil =>
    unfold cutAt?
    rfl
  | cons c cs ih =>
    have hpos := c.utf8Size_pos
    have hne : c.utf8Size + byteSize cs ≠ 0 := by omega
    have hle : c.utf8Size ≤ c.utf8Size + byteSize cs := by omega
    unfold cutAt?
    simp only [byteSize_cons, List.cons_append, if_neg hne, if_pos hle, Nat.add_sub_cancel_left,
      ih, Option.map_some]

/-- A cut is between two parts of the text, the first of which has the given size. -/
theorem Text.cutAt?_eq_some_iff {n : Nat} {cs as bs : List Char} :
    cutAt? n cs = some (as, bs) ↔ cs = as ++ bs ∧ byteSize as = n := by
  constructor
  · intro h
    fun_induction cutAt? n cs generalizing as with
    | case1 cs =>
      cases h
      exact ⟨rfl, rfl⟩
    | case2 | case4 => cases h
    | case3 n hn c cs hc ih =>
      obtain ⟨⟨init, rest⟩, hcut, heq⟩ := Option.map_eq_some_iff.1 h
      cases heq
      obtain ⟨rfl, hsize⟩ := ih hcut
      rw [byteSize_cons, hsize]
      exact ⟨rfl, Nat.add_sub_cancel' hc⟩
  · rintro ⟨rfl, rfl⟩
    exact cutAt?_byteSize as bs

/-- The part of a text at a span, if both of its ends are between characters of the text. -/
def Span.text? (s : Span) (source : String) : Option String := do
  let (_, rest) ← cutAt? s.start source.toList
  let (inside, _) ← cutAt? (s.stop - s.start) rest
  if s.start ≤ s.stop then return String.ofList inside else none

theorem Span.text?_of_append {source : String} {before inside after : List Char}
    (h : source.toList = before ++ inside ++ after) :
    Span.text? ⟨byteSize before, byteSize before + byteSize inside⟩ source =
      some (String.ofList inside) := by
  have hsize : byteSize before + byteSize inside - byteSize before = byteSize inside :=
    Nat.add_sub_cancel_left _ _
  simp only [Span.text?, h, hsize]
  rw [List.append_assoc, cutAt?_byteSize]
  dsimp only [Option.bind_eq_bind, Option.bind_some]
  rw [cutAt?_byteSize]
  simp

end PieChecker
