import PieChecker.Text.CodePoint

set_option autoImplicit false

/-!
# Blank characters

The characters with the Unicode property `White_Space`. They separate lexemes, and they are cut
off at the end of a reported source line.
-/

namespace PieChecker.Text

/-- The code points of the blank characters as closed intervals, in increasing order. -/
def blankIntervals : List (Nat × Nat) :=
  [(0x09, 0x0D), (0x20, 0x20), (0x85, 0x85), (0xA0, 0xA0), (0x1680, 0x1680), (0x2000, 0x200A),
    (0x2028, 0x2029), (0x202F, 0x202F), (0x205F, 0x205F), (0x3000, 0x3000)]

/-- Is the character blank? -/
def isBlank (c : Char) : Bool :=
  inIntervals blankIntervals c

/-- The text without the blank characters at its end. -/
def trimEnd (cs : List Char) : List Char :=
  (cs.reverse.dropWhile isBlank).reverse

end PieChecker.Text
