import PrologTerms.Operator
import PrologTerms.Reading.Expr
import PrologTerms.Reading.Lexeme

/-!
# Terms that are begun

While an operand is read, the terms that it is a part of are begun but not complete. Each of them is
a frame; the frames around an operand, the innermost first, are all that has to be remembered of the
text before it, so that terms may be nested to any depth.
-/

namespace PrologTerms

/-- The highest priority of an argument of a compound term, or of an element of a list. -/
def argumentMax : Nat := 999

/-- A bracket that is open, with the complete terms in it, the last one first. -/
inductive Bracket
  /-- A round bracket around a term. -/
  | paren
  /-- A curly bracket around a term. -/
  | curly
  /-- The round bracket of a functor and its arguments. -/
  | arguments (name : String) (before : List Expr)
  /-- A square bracket and its elements. -/
  | items (before : List Expr)
  /-- A square bracket, its elements, and the bar before the tail. -/
  | tail (before : List Expr)
deriving Repr

/-- A term that waits for an operand. -/
inductive Frame
  /-- An infix operator with its left operand waits for its right operand. With the operator's
  priority the term has at most the priority `max`. -/
  | rightOperand (left : Expr) (name : String) (priority max : Nat)
  /-- A prefix operator waits for its operand. -/
  | onlyOperand (name : String) (priority max : Nat)
  /-- A bracket waits for its contents. It stands where terms have at most the priority `max`. -/
  | contents (b : Bracket) (max : Nat)
deriving Repr

/-- A part of a term that is begun. -/
inductive Fragment
  /-- A complete term. -/
  | expr (e : Expr)
  /-- The name of a functor or operator. -/
  | name (s : String)
deriving Repr

/-! ## Brackets -/

/-- What the next lexeme makes of a bracket. -/
inductive BracketStep
  /-- The bracket is closed, and this is its term. -/
  | closed (e : Expr)
  /-- The bracket waits for one more term. -/
  | again (b : Bracket)
deriving Repr

namespace Bracket

/-- What a bracket with a term in it waits for. -/
def expected : Bracket → Expectation
  | .paren => .bracket ")"
  | .curly => .bracket "\x7d"
  | .arguments _ _ => .argument
  | .items _ => .item
  | .tail _ => .bracket "]"

/-- What the lexeme behind the term `e` makes of the bracket around both, unless it is a lexeme that
the bracket does not wait for. -/
def next? (b : Bracket) (e : Expr) (l : Lexeme) : Option BracketStep :=
  match b with
  | .paren => if l.isPunct ")" then some (.closed e) else none
  | .curly => if l.isPunct "\x7d" then some (.closed (.curly e)) else none
  | .arguments name before =>
    if l.isPunct "," then some (.again (.arguments name (e :: before)))
    else if l.isPunct ")" then some (.closed (.call name (e :: before).reverse))
    else none
  | .items before =>
    if l.isPunct "," then some (.again (.items (e :: before)))
    else if l.isPunct "|" then some (.again (.tail (e :: before)))
    else if l.isPunct "]" then some (.closed (.list (e :: before).reverse .nil))
    else none
  | .tail before => if l.isPunct "]" then some (.closed (.list before.reverse e)) else none

/-- The complete parts of a bracket, in the order of the text. -/
def fragments : Bracket → List Fragment
  | .paren => []
  | .curly => []
  | .arguments name before => .name name :: before.reverse.map .expr
  | .items before => before.reverse.map .expr
  | .tail before => before.reverse.map .expr

end Bracket

/-- The complete parts of a term that is begun, in the order of the text. -/
def Frame.fragments : Frame → List Fragment
  | .rightOperand left name _ _ => [.expr left, .name name]
  | .onlyOperand name _ _ => [.name name]
  | .contents b _ => b.fragments

/-- The complete parts of all terms around an operand, in the order of the text. -/
def fragmentsAround (frames : List Frame) : List Fragment :=
  frames.reverse.flatMap Frame.fragments

end PrologTerms
