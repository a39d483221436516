import PrologTerms.Writing.Term

/-!
# Naming variables

A written variable has the name that it has in the text it was read from, where this is unambiguous;
other variables are named after their addresses. Underlines are appended to a name until it is
different from the names of all other written variables, and, if the variable has no name of its
own, before that until it is different from all names in the texts.
-/

namespace PrologTerms

/-- Appends as few underlines to a name as needed to make it different from the names `taken`, but
no more than the given number. -/
def avoidWithin (taken : List String) : Nat → String → String
  | 0, name => name
  | n + 1, name => if name ∈ taken then avoidWithin taken n (name ++ "_") else name

/-- Appends as few underlines to a name as needed to make it different from the names `taken`, which
are at most as many as there are names in the list. -/
def avoid (taken : List String) (name : String) : String := avoidWithin taken taken.length name

/-- The name of a variable without a name of its own, which says where it is. -/
def addressName (i : Address) : String := "_G" ++ String.ofList (Nat.toDigits 10 i)

/-- The names given to variables, the latest first. -/
abbrev Naming := List (Address × String)

namespace Naming

/-- The name for the next variable. -/
def nameFor (source : SourceNames) (given : Naming) (i : Address) : String :=
  let wanted :=
    match source.lookup i with
    | some name => name
    | none => avoid (source.map Prod.snd) (addressName i)
  avoid (given.map Prod.snd) wanted

/-- Names a variable, unless it has been named. -/
def add (source : SourceNames) (given : Naming) (i : Address) : Naming :=
  match given.lookup i with
  | some _ => given
  | none => (i, nameFor source given i) :: given

/-- Names variables in their order. -/
def addAll (source : SourceNames) (given : Naming) (is : List Address) : Naming :=
  is.foldl (add source) given

/-- The name that a variable has been given. -/
def get (given : Naming) (i : Address) : String := (given.lookup i).getD ""

end Naming

/-! ## Texts -/

namespace Tree

/-- The text of a term, and the names given to variables by then. -/
def writeNaming (ops : OpTable) (source : SourceNames) (given : Naming) (t : Tree) :
    String × Naming :=
  let ps := t.pieces ops
  let given := given.addAll source (ps.filterMap Piece.var?)
  (String.ofList (Piece.textAll given.get ps), given)

/-- The text of a term. -/
def text (ops : OpTable) (source : SourceNames) (t : Tree) : String :=
  (t.writeNaming ops source []).1

/-- The texts of several terms, in which no two variables have the same name. -/
def texts (ops : OpTable) (source : SourceNames) : Naming → List Tree → List String
  | _, [] => []
  | given, t :: ts =>
    let (s, given) := t.writeNaming ops source given
    s :: texts ops source given ts

/-- The text of a term as a clause. A space keeps the full stop apart from a symbol name, which it
would join, and from a number, of which it would be the decimal point. -/
def clauseText (ops : OpTable) (source : SourceNames) (t : Tree) : String :=
  let s := t.text ops source
  match s.toList.getLast? with
  | some c => if isSymbol c || c.isDigit then s ++ " ." else s ++ "."
  | none => s ++ "."

end Tree

end PrologTerms
