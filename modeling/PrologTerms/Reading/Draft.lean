import PrologTerms.Heap.Basic
import PrologTerms.Reading.Clause

/-!
# Putting terms on the heap

Expressions become terms from left to right, so that the order in which variables, atoms and
compound terms are made is that of the text. What was complete before an error stays on the heap.
-/

namespace PrologTerms

/-- What is extended while terms are read. -/
structure Draft where
  /-- The slots of all terms. -/
  heap : Heap := {}
  /-- The atoms. -/
  atoms : AtomTable := .fresh
  /-- The names of variables. -/
  names : SourceNames := []
  /-- The variables of the clause that is being read. -/
  scope : List (String × Cell) := []
deriving Repr

namespace Draft

/-- The variable of a name; a new one if the name is new in its clause, and always for `_`. -/
def var (d : Draft) (name : String) : Cell × Draft :=
  if name = "_" then
    let (c, heap) := d.heap.newVar
    (c, { d with heap })
  else
    match d.scope.lookup name with
    | some c => (c, d)
    | none =>
      let (c, heap) := d.heap.newVar
      (c, { d with heap, names := (d.heap.size, name) :: d.names, scope := (name, c) :: d.scope })

/-- The atom of a name. -/
def intern (d : Draft) (name : String) : AtomId × Draft :=
  let (a, atoms) := d.atoms.intern name
  (a, { d with atoms })

/-- A new compound term. -/
def newCompound (d : Draft) (f : Functor) (args : List Cell) : Cell × Draft :=
  let (c, heap) := d.heap.newCompound f args
  (c, { d with heap })

mutual

/-- The term of an expression. -/
def build (d : Draft) : Expr → Cell × Draft
  | .var name => d.var name
  | .int n => (.int n, d)
  | .atom name =>
    let (a, d) := d.intern name
    (.atom a, d)
  | .compound before name behind =>
    let (as, d) := d.buildAll before
    let (a, d) := d.intern name
    let (bs, d) := d.buildAll behind
    d.newCompound ⟨a, as.length + bs.length⟩ (as ++ bs)

/-- The terms of several expressions. -/
def buildAll (d : Draft) : List Expr → List Cell × Draft
  | [] => ([], d)
  | e :: es =>
    let (c, d) := d.build e
    let (cs, d) := d.buildAll es
    (c :: cs, d)

end

/-- Puts a part of a term on the heap that never becomes complete. -/
def addFragment (d : Draft) : Fragment → Draft
  | .expr e => (d.build e).2
  | .name s => (d.intern s).2

/-- The term of a clause, or the error in its place. -/
def addClause (d : Draft) (clause : Except ReadFailure Expr) : Except ReadError Cell × Draft :=
  let d := { d with scope := [] }
  match clause with
  | .ok e =>
    let (c, d) := d.build e
    (.ok c, d)
  | .error f => (.error f.error, f.parts.foldl addFragment d)

/-- The terms of several clauses, or the errors in their places. -/
def addClauses (d : Draft) : List (Except ReadFailure Expr) → List (Except ReadError Cell) × Draft
  | [] => ([], d)
  | c :: cs =>
    let (r, d) := d.addClause c
    let (rs, d) := d.addClauses cs
    (r :: rs, d)

end Draft

end PrologTerms
