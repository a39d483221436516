import PrologTerms.Tree
import PrologTerms.Writing.Atom

/-!
# Pieces of written terms

A written term is a sequence of pieces, each of them a single token or a space. The names of
variables depend on the names of all others, so that a variable is a piece of its own until names
are given.
-/

namespace PrologTerms

/-- A token of a written term, or a space between two of them. -/
inductive Piece
  /-- An atom, or the name of an operator. -/
  | atom (name : String)
  /-- The name of a compound term in front of its arguments. -/
  | functor (name : String)
  /-- An integer. -/
  | int (n : Int)
  /-- A variable. -/
  | var (i : Address)
  /-- A bracket, a comma or a bar. -/
  | punct (c : Char)
  /-- A space. -/
  | space
deriving Repr, DecidableEq

/-- An integer in decimal. -/
def decimal : Int → List Char
  | .ofNat n => Nat.toDigits 10 n
  | .negSucc n => '-' :: Nat.toDigits 10 (n + 1)

namespace Piece

/-- The text of a piece, given the names of variables. The brackets `[]` and `{}` are read as one
name only where no argument follows, so in front of arguments they are quoted. -/
def text (naming : Address → String) : Piece → List Char
  | .atom name => atomText name
  | .functor name => if name = "[]" ∨ name = "{}" then quotedName name else atomText name
  | .int n => decimal n
  | .var i => (naming i).toList
  | .punct c => [c]
  | .space => [' ']

/-- The variable that a piece is, if it is one. -/
def var? : Piece → Option Address
  | .var i => some i
  | _ => none

/-- The text of a sequence of pieces. -/
def textAll (naming : Address → String) (ps : List Piece) : List Char := ps.flatMap (text naming)

end Piece

end PrologTerms
