import PieChecker.Text.CharWidth

set_option autoImplicit false

/-!
# Ligatures

Some scripts draw a sequence of letters as one sign, which then takes the room of one letter. A
text is read from its end, so a ligature is known first by its last letter; `LigatureEnd` says
how much of a ligature has been read, and `LigatureEnd.extend?` what a character before it makes
of that. Marks that are ignored by default may stand inside a ligature, and outside Arabic so
may joiners, some of which are required.
-/

namespace PieChecker.Text

/-- Does a character have the given code point? -/
def hasCode (n : Nat) (c : Char) : Bool := c.toNat == n

/-- The character that joins its two neighbours. -/
def isJoiner (c : Char) : Bool := hasCode 0x200D c

/-- Is a character a mark that is ignored by default, so that it may stand inside a ligature? -/
def isIgnoredMark (c : Char) : Bool :=
  inIntervals [(0x034F, 0x034F), (0x17B4, 0x17B5), (0x180B, 0x180D), (0x180F, 0x180F),
    (0xFE00, 0xFE0F), (0xE0100, 0xE01EF)] c

/-- Is a character an Arabic lam? -/
def isLam (c : Char) : Bool :=
  inIntervals [(0x0644, 0x0644), (0x06B5, 0x06B8), (0x076A, 0x076A), (0x08A6, 0x08A6),
    (0x08C7, 0x08C7)] c

/-- Is a character an Arabic alef? -/
def isAlef (c : Char) : Bool :=
  inIntervals [(0x0622, 0x0623), (0x0625, 0x0625), (0x0627, 0x0627), (0x0671, 0x0673),
    (0x0675, 0x0675), (0x0773, 0x0774), (0x0870, 0x0882)] c

/-- Is a character a Tifinagh consonant? -/
def isTifinaghConsonant (c : Char) : Bool := inIntervals [(0x2D31, 0x2D65), (0x2D6F, 0x2D6F)] c

/-- Is a character a Khmer letter that can be written below another? -/
def isSubscriptKhmer (c : Char) : Bool :=
  inIntervals [(0x1780, 0x1782), (0x1784, 0x1787), (0x1789, 0x178C), (0x178E, 0x1793),
    (0x1795, 0x1798), (0x179B, 0x179D), (0x17A0, 0x17A0), (0x17A2, 0x17A2), (0x17A7, 0x17A7),
    (0x17AB, 0x17AC), (0x17AF, 0x17AF)] c

/-- The code points of characters without a width that keep Arabic letters from joining across
them. -/
def partingIntervals : List (Nat × Nat) :=
  [(0x0605, 0x0605), (0x0890, 0x0891), (0x08E2, 0x08E2), (0x09BE, 0x09BE), (0x09D7, 0x09D7),
    (0x0B3E, 0x0B3E), (0x0B57, 0x0B57), (0x0BBE, 0x0BBE), (0x0BD7, 0x0BD7), (0x0CC0, 0x0CC0),
    (0x0CC2, 0x0CC2), (0x0CC7, 0x0CC8), (0x0CCA, 0x0CCB), (0x0CD5, 0x0CD6), (0x0D3E, 0x0D3E),
    (0x0D4E, 0x0D4E), (0x0D57, 0x0D57), (0x0DCF, 0x0DCF), (0x0DDF, 0x0DDF), (0x1160, 0x11FF),
    (0x180E, 0x180E), (0x1B35, 0x1B35), (0x1B3B, 0x1B3B), (0x1B3D, 0x1B3D), (0x1B43, 0x1B43),
    (0x200C, 0x200D), (0x2065, 0x2069), (0x302E, 0x302F), (0x3164, 0x3164), (0xA8FA, 0xA8FA),
    (0xD7B0, 0xD7C6), (0xD7CB, 0xD7FB), (0xFF9E, 0xFFA0), (0xFFF0, 0xFFF8), (0x111C2, 0x111C3),
    (0x1133E, 0x1133E), (0x11357, 0x11357), (0x114B0, 0x114B0), (0x114BD, 0x114BD),
    (0x115AF, 0x115AF), (0x11930, 0x11930), (0x1193F, 0x1193F), (0x11941, 0x11941),
    (0x11A3A, 0x11A3A), (0x11A84, 0x11A89), (0x11D46, 0x11D46), (0x11F02, 0x11F02),
    (0x1D165, 0x1D165), (0x1D16E, 0x1D172), (0xE0000, 0xE0000), (0xE0002, 0xE001F),
    (0xE0080, 0xE00FF), (0xE01F0, 0xE0FFF)]

/-- The end of a sequence that may turn out to be a ligature. -/
inductive LigatureEnd where
  /-- An Arabic alef, which joins a lam. -/
  | alef
  /-- A Hebrew lamed, which joins an alef. -/
  | lamed
  /-- A Buginese ya, which joins a vowelled letter a. -/
  | ya
  /-- The vowel of that letter and the ya. -/
  | vowelYa
  /-- A Tifinagh consonant, which joins another one. -/
  | consonant
  /-- The mark between two Tifinagh consonants, and the second one. -/
  | markedConsonant
  /-- The second of two Lisu tone letters. -/
  | tone
  /-- The Old Turkic letter i, which joins a letter before it. -/
  | orkhonI
  /-- A Khmer letter, written below another one after a sign that asks for that. -/
  | khmerLetter
  deriving DecidableEq, Repr

namespace LigatureEnd

/-- The ligature of which a character may be the end. -/
def ofChar? (c : Char) : Option LigatureEnd :=
  if isAlef c then some alef
  else if hasCode 0x05DC c then some lamed
  else if hasCode 0x1A10 c then some ya
  else if isTifinaghConsonant c then some consonant
  else if inIntervals [(0xA4FC, 0xA4FD)] c then some tone
  else if hasCode 0x10C03 c then some orkhonI
  else if isSubscriptKhmer c then some khmerLetter
  else none

/-- The columns that a character adds before the end of a ligature, and what of the ligature is
still to come. The flag says whether a joiner stands between them. Without a result the
character does not belong to the ligature. -/
def extend? (c : Char) (joined : Bool) : LigatureEnd → Option (Int × Option LigatureEnd)
  | alef => if isLam c then some (0, none) else none
  | lamed => if joined && hasCode 0x05D0 c then some (0, none) else none
  | ya => if joined && hasCode 0x1A17 c then some (0, some vowelYa) else none
  | vowelYa => if hasCode 0x1A15 c then some (0, none) else none
  | consonant =>
    if hasCode 0x2D7F c then some (1, some markedConsonant)
    else if joined && isTifinaghConsonant c then some (0, none)
    else none
  | markedConsonant => if isTifinaghConsonant c then some (-1, none) else none
  | tone => if inIntervals [(0xA4F8, 0xA4FB)] c then some (0, none) else none
  | orkhonI => if joined && hasCode 0x10C32 c then some (0, none) else none
  | khmerLetter => if hasCode 0x17D2 c then some (-1, none) else none

/-- May a character other than a joiner stand inside the ligature? -/
def passes (c : Char) : LigatureEnd → Bool
  | alef => charWidth c = 0 && !inIntervals partingIntervals c
  | _ => isIgnoredMark c

/-- May joiners stand inside the ligature? -/
def passesJoiner : LigatureEnd → Bool
  | alef => false
  | _ => true

end LigatureEnd

end PieChecker.Text
