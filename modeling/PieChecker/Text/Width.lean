import PieChecker.Text.Emoji
import PieChecker.Text.Ligature

set_option autoImplicit false

/-!
# Display widths

The number of columns that a text takes on a terminal. It is the sum of the widths of its
characters, except where characters are drawn as one sign.

* A selector after a character shows it as an emoji, two columns wide, or as text, one column
  wide.
* A skin tone changes the emoji before it and takes no room of its own.
* Emoji that joiners link are one emoji. The parts may be styled or modified emoji, keycaps and
  flags.
* Some scripts have ligatures.

The text is read from its end, and `Following` is what has to be remembered of the part already
read.
-/

namespace PieChecker.Text

/-- How a selector asks for a character to be shown. -/
inductive Style where
  | text | emoji
  deriving DecidableEq, Repr

/-- What follows a character, as far as the room that the character takes depends on it. -/
inductive Following where
  /-- Nothing that matters. -/
  | other
  /-- A selector. -/
  | selector (style : Style)
  | emoji
  | modifier
  /-- As many flag letters. -/
  | flagLetters (count : Nat)
  /-- A joiner and an emoji. -/
  | joined
  /-- The keycap mark, a joiner and an emoji. -/
  | joinedKeycap
  /-- A selector for emoji, then a joiner and an emoji, perhaps with the keycap mark before the
  joiner. -/
  | joinedSelector
  /-- As many flag letters, a joiner and an emoji. -/
  | joinedFlagLetters (count : Nat)
  /-- The end of the invisible name of a region with as many letters and before them digits, a
  joiner and an emoji. -/
  | joinedRegion (letters digits : Nat)
  /-- The end of a ligature, with a joiner or without one, and perhaps with a selector before
  it. -/
  | ligature (part : LigatureEnd) (link : Bool) (style : Option Style)
  deriving DecidableEq, Repr

namespace Following

/-- The selector that follows at once. -/
def style? : Following → Option Style
  | selector style => some style
  | joinedSelector => some .emoji
  | ligature _ _ style => style
  | _ => none

/-- What follows, without a selector that has no use. -/
def dropStyle : Following → Following
  | selector _ | joinedSelector => other
  | ligature part link _ => ligature part link none
  | next => next

/-- What follows after a selector is put before it. -/
def addStyle (style : Style) : Following → Following
  | ligature part link _ => ligature part link (some style)
  | joined | joinedKeycap => if style = .emoji then joinedSelector else selector style
  | _ => selector style

/-- What a character is to the one before it. -/
def ofChar (c : Char) : Following :=
  if isEmoji c then emoji
  else if isModifier c then modifier
  else if isFlagLetter c then flagLetters 1
  else match LigatureEnd.ofChar? c with
    | some part => ligature part false none
    | none => other

/-- The columns that a character adds where it is one sign with what follows, and what follows
the character before it. -/
def combine? (c : Char) : Following → Option (Int × Following)
  | emoji => if isJoiner c then some (0, joined) else none
  | modifier =>
    if isJoiner c then some (0, joined)
    else if isModifiable c then some (0, emoji)
    else none
  | flagLetters count =>
    if isFlagLetter c then some (1, flagLetters (count + 1))
    else if isJoiner c && 2 ≤ count then some (0, joined)
    else none
  | joined =>
    if hasCode 0x20E3 c then some (0, joinedKeycap)
    else if isFlagLetter c then some (1, joinedFlagLetters 1)
    else if isModifier c then some (0, modifier)
    else if hasCode 0xE007F c then some (0, joinedRegion 0 0)
    else if isEmoji c then some (0, emoji)
    else none
  | joinedFlagLetters count =>
    -- The first letter of a flag gives back the column of the second one: the emoji after the
    -- joiner has room for all.
    if isFlagLetter c then some (if count % 2 = 1 then -1 else 3, joinedFlagLetters (count + 1))
    else if isJoiner c && 2 ≤ count then some (0, joined)
    else none
  | joinedRegion letters digits =>
    if isTagLetter c && digits = 0 && letters < 6 then some (0, joinedRegion (letters + 1) 0)
    else if isTagDigit c && digits <
      3 && (0 < digits || letters ≤ 4) then some (0, joinedRegion letters (digits + 1))
    else if hasCode 0x1F3F4 c && (digits = 3 || digits = 0 && 3 ≤ letters) then some (0, emoji)
    else none
  | ligature part link _ =>
    if isJoiner c && part.passesJoiner then some (0, ligature part true none)
    else if part.passes c then some (0, ligature part link none)
    else (part.extend? c link).map fun (columns, rest) =>
      (columns, rest.elim other (ligature · false none))
  | _ => none

/-- The columns that a character without a selector adds before what follows it, and what
follows the character before it. -/
def addPlain (c : Char) (next : Following) : Int × Following :=
  if c.toNat ≤ lastPlain then (1, other)
  else if hasCode 0xFE0F c then (0, next.addStyle .emoji)
  else if hasCode 0xFE0E c then (0, next.addStyle .text)
  else (next.combine? c).getD (charWidth c, ofChar c)

/-- The columns that a character adds before what follows it, and what follows the character
before it. -/
def add (c : Char) (next : Following) : Int × Following :=
  match next.style? with
  | none => addPlain c next
  | some .emoji =>
    if hasEmojiStyle c then (if next = joinedSelector then 0 else 2, emoji) else addPlain c
      next.dropStyle
  | some .text => if hasTextStyle c then (1, other) else addPlain c next.dropStyle

end Following

/-- The columns that a text takes, and what it is to a character before it. -/
def measure : List Char → Int × Following
  | [] => (0, .other)
  | c :: cs =>
    let (columns, next) := measure cs
    let (added, before) := next.add c
    (added + columns, before)

/-- The number of columns that a text takes. -/
def width (cs : List Char) : Nat := (measure cs).1.toNat

end PieChecker.Text
