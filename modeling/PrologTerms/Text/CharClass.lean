import PrologTerms.Text.Property.Alphabetic
import PrologTerms.Text.Property.Uppercase
import PrologTerms.Text.Property.WhiteSpace

/-!
# Character classes

Every character belongs to at most one class, which decides what kind of token it can begin. Up to
U+00FF the classes follow a fixed table of ISO 8859-1; above, letters are capital or small, white
space is layout, and everything else has no class.
-/

namespace PrologTerms

/-- What a character may be used for in a text. -/
inductive CharClass
  /-- White space and control characters. -/
  | layout
  /-- Letters that may begin a word. -/
  | small
  /-- Letters that may begin a variable. -/
  | capital
  /-- Decimal digits. -/
  | digit
  /-- Characters that join into names such as `=..`. -/
  | symbol
  /-- `!` and `;`, which are names on their own. -/
  | solo
  /-- Brackets, the comma, the bar and the percent sign. -/
  | punctuation
  /-- The two quotes. -/
  | quote
  /-- The underline, and characters that no token begins with. -/
  | other
deriving Repr, DecidableEq

namespace CharClass

/-- The class of a code point up to 255. -/
def ofLatin1 (n : Nat) : CharClass :=
  if n ≤ 32 ∨ (127 ≤ n ∧ n ≤ 159) then .layout
  else if (97 ≤ n ∧ n ≤ 122) ∨ (223 ≤ n ∧ n ≤ 246) ∨ (248 ≤ n ∧ n ≤ 255) then .small
  else if (65 ≤ n ∧ n ≤ 90) ∨ (192 ≤ n ∧ n ≤ 214) ∨ (216 ≤ n ∧ n ≤ 222) then .capital
  else if 48 ≤ n ∧ n ≤ 57 then .digit
  else if n ∈ [35, 36, 38, 42, 43, 45, 46, 47, 58, 60, 61, 62, 63, 64, 92, 94, 96, 126] ∨
      (160 ≤ n ∧ n ≤ 191) ∨ n = 215 ∨ n = 247 then .symbol
  else if n = 33 ∨ n = 59 then .solo
  else if n ∈ [37, 40, 41, 44, 91, 93, 123, 124, 125] then .punctuation
  else if n = 34 ∨ n = 39 then .quote
  else .other

/-- The class of a character. -/
def of (c : Char) : CharClass :=
  if c.toNat ≤ 255 then ofLatin1 c.toNat
  else if uppercaseRanges.contains c then .capital
  else if alphabeticRanges.contains c then .small
  else if whiteSpaceRanges.contains c then .layout
  else .other

end CharClass

/-- Is `c` white space or a control character? -/
def isLayout (c : Char) : Bool := CharClass.of c == .layout

/-- May `c` begin a word? -/
def isSmall (c : Char) : Bool := CharClass.of c == .small

/-- May `c`, like the underline, begin a variable? -/
def isCapital (c : Char) : Bool := CharClass.of c == .capital

/-- Is `c` a decimal digit? -/
def isDigit (c : Char) : Bool := CharClass.of c == .digit

/-- Does `c` join with its neighbours into a symbol name? -/
def isSymbol (c : Char) : Bool := CharClass.of c == .symbol

/-- Is `c` a name on its own? -/
def isSolo (c : Char) : Bool := CharClass.of c == .solo

/-- Is `c` a bracket, the comma, the bar or the percent sign? -/
def isPunctuation (c : Char) : Bool := CharClass.of c == .punctuation

/-- May `c` continue a word or a variable? -/
def isAlpha (c : Char) : Bool := c == '_' || isSmall c || isCapital c || isDigit c

end PrologTerms
