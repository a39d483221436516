import PrologTerms.Text.Property.GraphemeExtend
import PrologTerms.Text.Property.Ignorable
import PrologTerms.Text.Property.Unprintable

/-!
# Showing characters

Messages show a single character in quotes, and token listings show a text on one line; both write
characters that would not show as escapes.
-/

namespace PrologTerms

/-- The digits of `n` in base 16, in lower case, without leading zeros. -/
def hexDigits (n : Nat) : String := String.ofList (Nat.toDigits 16 n)

/-- The digits of `n` in base 16, at least two of them. -/
def hexByte (n : Nat) : String := if n < 16 then "0" ++ hexDigits n else hexDigits n

/-- Is `c` drawn onto the character before it? The two voicing marks for halfwidth Katakana extend a
character too, but stand beside it. -/
def isCombining (c : Char) : Bool :=
  graphemeExtendRanges.contains c && c != '\uff9e' && c != '\uff9f'

/-- Has `c` no shape that shows when it stands alone? -/
def isShapeless (c : Char) : Bool :=
  isCombining c || ignorableRanges.contains c || unprintableRanges.contains c

/-- A character as it stands between quotes in a message: common control characters, the single
quote and the backslash have short escapes, other characters without a shape of their own are given
by their code. -/
def displayedChar (c : Char) : String :=
  if c = '\x00' then "\\0"
  else if c = '\t' then "\\t"
  else if c = '\r' then "\\r"
  else if c = '\n' then "\\n"
  else if c = '\'' then "\\'"
  else if c = '\\' then "\\\\"
  else if isShapeless c then
    "\\u\x7b" ++ hexDigits c.toNat ++ "\x7d"
  else c.toString

/-- A character in single quotes. -/
def quotedChar (c : Char) : String := "'" ++ displayedChar c ++ "'"

/-- A character of a token listing: spaces, the double quote and all of U+0000 to U+00FF outside
ASCII are written as `\xHH`. -/
def listedChar (c : Char) : String :=
  if (0x21 ≤ c.toNat ∧ c.toNat ≤ 0x7E ∧ c ≠ '"') ∨ 0xFF < c.toNat then c.toString
  else "\\x" ++ hexByte c.toNat

end PrologTerms
