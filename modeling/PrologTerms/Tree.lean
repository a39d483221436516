import PrologTerms.Heap.Basic

/-!
# Terms as trees

A tree is a term without sharing: bound variables are replaced by their values all the way down, and
names stand where the heap has numbers. A term that runs in a circle is no tree.
-/

namespace PrologTerms

/-- A term with all bindings carried out. -/
inductive Tree
  /-- An unbound variable. -/
  | var (i : Address)
  /-- An integer. -/
  | int (n : Int)
  /-- A stand-in for an integer. -/
  | big (n : Nat)
  /-- A stand-in for a term. -/
  | global (n : Nat)
  /-- An atom. -/
  | atom (name : String)
  /-- A compound term. -/
  | compound (name : String) (args : List Tree)
deriving Repr

namespace Heap

/-- The tree of a term that is not deeper than `depth`. -/
def resolveWithin (h : Heap) (atoms : AtomTable) : (depth : Nat) → Cell → Option Tree
  | 0, _ => none
  | depth + 1, c =>
    match h.view? c with
    | none => none
    | some (.var i) => some (.var i)
    | some (.int n) => some (.int n)
    | some (.big n) => some (.big n)
    | some (.global n) => some (.global n)
    | some (.atom f) => some (.atom (atoms.name f.name))
    | some (.compound _ f args) =>
      (args.mapM (h.resolveWithin atoms depth)).map (.compound (atoms.name f.name))

/-- The tree of a term. A term that does not run in a circle is not deeper than the heap is large.
-/
def resolve? (h : Heap) (atoms : AtomTable) (c : Cell) : Option Tree :=
  h.resolveWithin atoms (h.size + 1) c

end Heap

end PrologTerms
