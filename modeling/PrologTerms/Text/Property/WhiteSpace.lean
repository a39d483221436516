import PrologTerms.Text.Ranges

/-!
# The white space characters

The ranges of code points above U+00FF that have the `White_Space` property of Unicode 17.0, in
increasing order.
-/

namespace PrologTerms

/-- The spaces and line separators above U+00FF. -/
def whiteSpaceRanges : Ranges :=
  [(0x1680, 0x1680), (0x2000, 0x200A), (0x2028, 0x2029), (0x202F, 0x202F), (0x205F, 0x205F),
   (0x3000, 0x3000)]

end PrologTerms
