/-!
# Expressions

An expression is a term as it is written: variables are known by their names, and the name of a
compound term keeps its place among the arguments, before them in functional notation and wherever
it stands as an operator. Lists, strings and terms in curly brackets are compound terms.
-/

namespace PrologTerms

/-- A term as it is written. -/
inductive Expr
  /-- A variable; every `_` is a variable of its own. -/
  | var (name : String)
  /-- An integer. -/
  | int (n : Int)
  /-- An atom. -/
  | atom (name : String)
  /-- A compound term with the arguments before and behind its name. -/
  | compound (before : List Expr) (name : String) (behind : List Expr)
deriving Repr

namespace Expr

/-- A compound term in functional notation. -/
def call (name : String) (args : List Expr) : Expr := .compound [] name args

/-- The empty list. -/
def nil : Expr := .atom "[]"

/-- A list cell. -/
def cons (head tail : Expr) : Expr := .call "." [head, tail]

/-- The list of the given elements in front of the given tail. -/
def list (items : List Expr) (tail : Expr) : Expr := items.foldr cons tail

/-- The list of the codes of characters. -/
def codes (s : String) : Expr := list (s.toList.map fun c => .int c.toNat) nil

/-- A term in curly brackets. -/
def curly (e : Expr) : Expr := .call "{}" [e]

end Expr

end PrologTerms
