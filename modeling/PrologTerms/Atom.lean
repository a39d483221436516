import PrologTerms.Arena

/-!
# Atoms

An atom is known by a number, which a table assigns to its name when the name is first met. Some
names have fixed numbers in every table, so that lists, curly terms and conjunctions can be told
without looking at names.
-/

namespace PrologTerms

/-- The number of an atom. -/
abbrev AtomId := Nat

namespace Atom

/-- The empty list `[]`. -/
def nil : AtomId := 0

/-- The list constructor `.`. -/
def dot : AtomId := 1

/-- The comma. -/
def comma : AtomId := 2

/-- The curly brackets `{}`. -/
def curly : AtomId := 3

/-- The names with fixed numbers, in the order of these. -/
def pinned : List String := ["[]", ".", ",", "{}", "-", ";", "|", ":-", ""]

end Atom

/-- The names of atoms; the number of an atom is the place of its name. -/
structure AtomTable where
  /-- The names in the order in which they were met. -/
  names : Arena String := ⟨Atom.pinned.toArray⟩
deriving Repr, DecidableEq

namespace AtomTable

/-- The table of the names with fixed numbers. -/
def fresh : AtomTable := {}

/-- The number of names. -/
def size (t : AtomTable) : Nat := t.names.size

/-- The number of a name, if the name has been met. -/
def find? (t : AtomTable) (name : String) : Option AtomId := t.names.slots.idxOf? name

/-- The name of a number, if it has been assigned. -/
def name? (t : AtomTable) (a : AtomId) : Option String := t.names.get? a

/-- The name of a number that has been assigned. -/
def name (t : AtomTable) (a : AtomId) : String := (t.name? a).getD ""

/-- The number of a name, assigned now if the name is new. -/
def intern (t : AtomTable) (name : String) : AtomId × AtomTable :=
  match t.find? name with
  | some a => (a, t)
  | none => (t.size, ⟨t.names.push name⟩)

/-- The names without a fixed number, in the order in which they were met. -/
def unpinned (t : AtomTable) : List String := t.names.toList.drop Atom.pinned.length

end AtomTable

end PrologTerms
