set_option autoImplicit false

/-!
# Byte positions

The bytes of a character in UTF-8 stay together, so a text can be cut only at the positions
between characters.
-/

namespace PieChecker.Text

/-- The number of bytes of a text. -/
def byteSize (cs : List Char) : Nat :=
  cs.foldr (fun c size => c.utf8Size + size) 0

/-- Cuts a text after so many bytes. There is no cut inside a character, nor beyond the end. -/
def cutAt? (position : Nat) (cs : List Char) : Option (List Char × List Char) :=
  if position = 0 then some ([], cs)
  else match cs with
    | [] => none
    | c :: cs =>
      if c.utf8Size ≤ position then (cutAt? (position - c.utf8Size) cs).map
        fun (before, after) => (c :: before, after)
      else none

end PieChecker.Text
