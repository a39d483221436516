import PrologTerms.Text.Property.GraphemeExtend
import PrologTerms.Text.Property.Ignorable
import PrologTerms.Text.Property.WhiteSpace
import PrologTerms.Text.Property.Wide

/-!
# Columns

To point at a part of a line from the line below, one has to know how many columns the characters
take on a screen. Most characters take one column, East Asian ones two, and marks on other
characters none. Control characters, tabs among them, have no width: they do not count where columns
are marked, and count as one column where a line is cut to the width of the screen.
-/

namespace PrologTerms

/-- The characters that complete another character, besides the combining and the ignorable ones:
vowels and final consonants of Korean syllables, signs that are drawn around or above the characters
behind them, and the Hebrew and Oriya marks of Unicode 18.0. -/
def attachedRanges : Ranges :=
  [(0x05C8, 0x05C8), (0x0605, 0x0605), (0x070F, 0x070F), (0x0890, 0x0891), (0x08E2, 0x08E2),
   (0x0B53, 0x0B54), (0x0D4E, 0x0D4E), (0x1160, 0x11FF), (0xA8FA, 0xA8FA), (0xD7B0, 0xD7C6),
   (0xD7CB, 0xD7FB), (0x111C2, 0x111C3), (0x113D1, 0x113D1), (0x1193F, 0x1193F),
   (0x11941, 0x11941), (0x11A84, 0x11A89), (0x11D46, 0x11D46), (0x11F02, 0x11F02)]

/-- The filler in place of the first consonant of a Korean syllable, which is as wide as one. -/
def consonantFiller : Char := '\u115f'

/-- The number of columns that a character takes, if it is no control character. Two Khmer signs are
written with the letters of whole words. -/
def width? (c : Char) : Option Nat :=
  if c.toNat < 0x20 ∨ (0x7F ≤ c.toNat ∧ c.toNat < 0xA0) then none
  else if c.toNat < 0x7F then some 1
  else if c = consonantFiller then some 2
  else if graphemeExtendRanges.contains c || ignorableRanges.contains c ||
      attachedRanges.contains c then some 0
  else if c = '\u17d8' then some 3
  else if c = '\u17a4' || wideRanges.contains c then some 2
  else some 1

/-- The number of columns that a run of characters takes where columns are marked. -/
def columns (cs : List Char) : Nat := cs.foldr (fun c n => (width? c).getD 0 + n) 0

/-- The number of columns that a run of characters takes where lines are cut. -/
def room (cs : List Char) : Nat := cs.foldr (fun c n => (width? c).getD 1 + n) 0

/-- The longest front of a run of characters for which there is the given room. -/
def takeRoom : Nat → List Char → List Char
  | _, [] => []
  | n, c :: cs =>
    let k := (width? c).getD 1
    if k ≤ n then c :: takeRoom (n - k) cs else []

/-- Does nothing show where the character stands? -/
def isBlank (c : Char) : Bool :=
  (0x09 ≤ c.toNat && c.toNat ≤ 0x0D) || c == ' ' || c.toNat == 0x85 || c.toNat == 0xA0 ||
    whiteSpaceRanges.contains c

/-- The number of spaces in place of a tab. -/
def tabSpaces : Nat := 4

/-- What is shown for a character of a line. The joiner of emoji and the controls of writing
direction are left out, because they would disturb what stands beside them. -/
def shownChar (c : Char) : List Char :=
  if c = '\t' then List.replicate tabSpaces ' '
  else if c.toNat = 0x200D ∨ (0x202A ≤ c.toNat ∧ c.toNat ≤ 0x202E) ∨
      (0x2066 ≤ c.toNat ∧ c.toNat ≤ 0x2069) then []
  else [c]

/-- What is shown for a line. -/
def shownLine (cs : List Char) : List Char := cs.flatMap shownChar

end PrologTerms
