import PrologTerms.Reading.Frame
import PrologTerms.Writing.Piece

/-!
# Writing terms

A term is written so that it can be read back with the same operators: lists in square brackets,
terms of the name `{}` in curly brackets, terms whose name is an operator with the name among the
arguments, and all others with their arguments in round brackets. An operator is put in brackets
where its priority is too high for its place, and so is an operator that is an operand as a mere
atom.
-/

namespace PrologTerms

/-- Where a term stands. -/
inductive Place
  /-- On its own, or in curly brackets. -/
  | whole
  /-- Among the arguments of a compound term or the elements of a list. -/
  | argument
  /-- Beside an operator that allows at most this priority there. -/
  | operand (max : Nat)
  /-- Behind the elements of a list. -/
  | tail
deriving Repr, DecidableEq

namespace Place

/-- The highest priority of a term that needs no brackets. -/
def max : Place → Nat
  | .whole => OpTable.maxPriority
  | .argument => argumentMax
  | .operand max => max
  | .tail => argumentMax

/-- Does the term stand beside an operator? -/
def isOperand : Place → Bool
  | .operand _ => true
  | _ => false

/-- Writes what comes before a term: a bar if the term is the tail of a list. -/
def lead (p : Place) (k : List Piece) : List Piece := if p = .tail then .punct '|' :: k else k

end Place

namespace Tree

/-- Writes something in round brackets, if these are needed. -/
def bracketed (needed : Bool) (inner : List Piece → List Piece) (k : List Piece) : List Piece :=
  if needed then .punct '(' :: inner (.punct ')' :: k) else inner k

/-- Writes a comma between two terms. -/
def comma (k : List Piece) : List Piece := .punct ',' :: .space :: k

/-- Writes the name of an operator between its operands. -/
def betweenOperands (name : String) (k : List Piece) : List Piece :=
  if name = "," then comma k else .space :: .atom name :: .space :: k

mutual

/-- Writes a term in front of the pieces `k`. -/
def write (ops : OpTable) : Tree → Place → List Piece → List Piece
  | .var i, p, k => p.lead (.var i :: k)
  | .int n, p, k => p.lead (.int n :: k)
  | .big n, p, k => p.lead (.functor "$big" :: .punct '(' :: .int n :: .punct ')' :: k)
  | .global n, p, k => p.lead (.functor "$gbl" :: .punct '(' :: .int n :: .punct ')' :: k)
  | .atom name, p, k =>
    if p = .tail ∧ name = "[]" then k
    else p.lead (bracketed (p.isOperand && ops.isOp name) (.atom name :: ·) k)
  | .compound name [a], p, k =>
    if name = "{}" then p.lead (.punct '{' :: a.write ops .whole (.punct '}' :: k))
    else
      match ops.before? name, ops.behind? name with
      | some d, _ =>
        p.lead (bracketed (p.max < d.priority)
          (fun k => .atom name :: .space :: a.write ops (.operand d.rightMax) k) k)
      | none, some d =>
        p.lead (bracketed (p.max < d.priority)
          (fun k => a.write ops (.operand d.leftMax) (.space :: .atom name :: k)) k)
      | none, none =>
        p.lead (.functor name :: .punct '(' :: a.write ops .argument (.punct ')' :: k))
  | .compound name [a, b], p, k =>
    if name = "." then
      if p = .tail then comma (a.write ops .argument (b.write ops .tail k))
      else .punct '[' :: a.write ops .argument (b.write ops .tail (.punct ']' :: k))
    else
      match ops.between? name with
      | some d =>
        p.lead (bracketed (p.max < d.priority)
          (fun k => a.write ops (.operand d.leftMax)
            (betweenOperands name (b.write ops (.operand d.rightMax) k))) k)
      | none =>
        p.lead (.functor name :: .punct '(' :: a.write ops .argument
          (comma (b.write ops .argument (.punct ')' :: k))))
  | .compound name args, p, k =>
    p.lead (.functor name :: .punct '(' :: writeArgs ops args (.punct ')' :: k))

/-- Writes arguments with commas between them in front of the pieces `k`. -/
def writeArgs (ops : OpTable) : List Tree → List Piece → List Piece
  | [], k => k
  | [t], k => t.write ops .argument k
  | t :: ts, k => t.write ops .argument (comma (writeArgs ops ts k))

end

/-- The pieces of a term on its own. -/
def pieces (ops : OpTable) (t : Tree) : List Piece := t.write ops .whole []

end Tree

end PrologTerms
