import PrologTerms.Atom

/-!
# Cells

A term is handled as a single cell. Small terms are the cell; a compound term is a cell with the
address of its parts on the heap.
-/

namespace PrologTerms

/-- The place of a cell on the heap. -/
abbrev Address := Nat

/-- The names that variables have in the texts they were read from, the latest first. -/
abbrev SourceNames := List (Address × String)

/-- A name with a number of arguments; an atom has none. -/
structure Functor where
  /-- The atom that is the name. -/
  name : AtomId
  /-- The number of arguments. -/
  arity : Nat
deriving Repr, DecidableEq

namespace Functor

/-- The functor of an atom. -/
def atom (a : AtomId) : Functor := ⟨a, 0⟩

/-- The functor of a list cell. -/
def dot : Functor := ⟨Atom.dot, 2⟩

/-- The functor of a term in curly brackets. -/
def curly : Functor := ⟨Atom.curly, 1⟩

end Functor

/-- What a slot of the heap holds. -/
inductive Cell
  /-- A variable; it is unbound if the address is its own. -/
  | ref (i : Address)
  /-- A compound term, whose functor is at the address and whose arguments follow. -/
  | str (i : Address)
  /-- An atom, or the functor at the head of a compound term. -/
  | con (f : Functor)
  /-- An integer. -/
  | int (n : Int)
  /-- A stand-in for an integer that is kept elsewhere. -/
  | big (n : Nat)
  /-- A stand-in for a term that is kept elsewhere. -/
  | global (n : Nat)
deriving Repr, DecidableEq

namespace Cell

/-- The atom of a number. -/
def atom (a : AtomId) : Cell := .con (.atom a)

/-- The empty list. -/
def nil : Cell := .atom Atom.nil

end Cell

end PrologTerms
