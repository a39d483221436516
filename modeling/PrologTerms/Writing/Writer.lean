import PrologTerms.Iteration
import PrologTerms.Writing.Naming

/-!
# Writing terms straight from the heap

A term is written without making its tree first. What is still to be written is kept on a list of tasks,
so that the depth of the term does not matter. A task looks at the outermost level of a term, through
the variables that lead to it; it writes what comes first, and puts tasks for the rest in its place.
-/

namespace PrologTerms

/-- Something that is still to be written. -/
inductive Task
  /-- A term in a place where terms up to the priority `max` need no brackets. Beside an operator, the
  term is an operand. -/
  | term (c : Cell) (max : Nat) (operand : Bool)
  /-- The rest of a list, behind an element. -/
  | tail (c : Cell)
  /-- The name of an operator. -/
  | atom (a : AtomId)
  /-- A fixed text. -/
  | text (cs : List Char)
deriving Repr, DecidableEq

/-- A text that is being written. -/
structure WriteState where
  /-- What is still to be written, the next task first. -/
  tasks : List Task
  /-- The names given to variables so far. -/
  given : Naming
  /-- What has been written. -/
  out : List Char := []
deriving Repr, DecidableEq

namespace WriteState

/-- Writes some characters. -/
def put (s : WriteState) (cs : List Char) : WriteState := { s with out := s.out ++ cs }

/-- Puts tasks in front of the others. -/
def push (s : WriteState) (ts : List Task) : WriteState := { s with tasks := ts ++ s.tasks }

/-- Opens a bracket if the priority of an operator is too high for its place. The bracket is closed
behind all that is put in front of the other tasks later. -/
def openFor (s : WriteState) (priority max : Nat) : WriteState :=
  if max < priority then (s.put ['(']).push [.text [')']] else s

end WriteState

/-- All that the text of a term depends on. -/
structure Writer where
  /-- The heap. -/
  heap : Heap
  /-- The names of atoms. -/
  atoms : AtomTable
  /-- The operators. -/
  ops : OpTable
  /-- The names of variables in the texts they were read from. -/
  source : SourceNames

namespace Writer

variable (w : Writer)

/-- Writes a variable, which is given a name if it has not got one. -/
def writeVar (i : Address) (s : WriteState) : WriteState :=
  let given := s.given.add w.source i
  { s with given, out := s.out ++ (given.get i).toList }

/-- Writes an atom, in brackets if it is an operator among operands. -/
def writeAtom (a : AtomId) (operand : Bool) (s : WriteState) : WriteState :=
  let name := w.atoms.name a
  s.put (if operand && w.ops.isOp name then '(' :: atomText name ++ [')'] else atomText name)

/-- Writes an operator with its operands, if the name is an operator for as many as there are
arguments. -/
def operator? (f : Functor) (args : List Cell) (max : Nat) (s : WriteState) : Option WriteState :=
  let name := w.atoms.name f.name
  match args with
  | [a, b] =>
    (w.ops.between? name).map fun d =>
      let sign := if f.name = Atom.comma then [.text [',', ' ']]
        else [.text [' '], .atom f.name, .text [' ']]
      (s.openFor d.priority max).push
        (.term a d.leftMax true :: sign ++ [.term b d.rightMax true])
  | [a] =>
    match w.ops.before? name, w.ops.behind? name with
    | some d, _ =>
      some (((s.openFor d.priority max).put (atomText name ++ [' '])).push [.term a d.rightMax true])
    | none, some d =>
      some ((s.openFor d.priority max).push [.term a d.leftMax true, .text [' '], .atom f.name])
    | none, none => none
  | _ => none

/-- Arguments with commas between them. -/
def argumentTasks (args : List Cell) : List Task :=
  (args.map fun a => .term a argumentMax false).intersperse (.text [',', ' '])

/-- Writes a compound term in functional notation. The brackets `[]` and `{}` are quoted in front of
arguments. -/
def writeCall (f : Functor) (args : List Cell) (s : WriteState) : WriteState :=
  let name := w.atoms.name f.name
  let shown := if f.name = Atom.nil ∨ f.name = Atom.curly then '\'' :: name.toList ++ ['\'']
    else atomText name
  (s.put (shown ++ ['('])).push (argumentTasks args ++ [.text [')']])

/-- Writes a compound term. There is no answer if arguments are missing. -/
def writeCompound? (f : Functor) (args : List Cell) (max : Nat) (s : WriteState) :
    Option WriteState :=
  if f = .dot then
    match args with
    | [a, b] => some ((s.put ['[']).push [.term a argumentMax false, .tail b, .text [']']])
    | _ => none
  else if f = .curly then
    match args with
    | [a] => some ((s.put ['{']).push [.term a OpTable.maxPriority false, .text ['}']])
    | _ => none
  else some ((w.operator? f args max s).getD (w.writeCall f args s))

/-- Writes a term. There is no answer if the term is not well-formed. -/
def writeTerm? (c : Cell) (max : Nat) (operand : Bool) (s : WriteState) : Option WriteState := do
  match ← w.heap.deref? c with
  | .ref i => pure (w.writeVar i s)
  | .int n => pure (s.put (decimal n))
  | .big n => pure (s.put ("'$big'(".toList ++ decimal n ++ [')']))
  | .global n => pure (s.put ("'$gbl'(".toList ++ decimal n ++ [')']))
  | .con f => pure (w.writeAtom f.name operand s)
  | .str i =>
    let (f, args) ← w.heap.compound? i
    w.writeCompound? f args max s

/-- Writes the rest of a list: nothing if it is empty, one more element if there is one, and anything
else behind a bar. -/
def writeTail? (c : Cell) (s : WriteState) : Option WriteState := do
  let d ← w.heap.deref? c
  if ← w.heap.isPair? d then
    let a ← w.heap.arg? d 0
    let b ← w.heap.arg? d 1
    pure ((s.put [',', ' ']).push [.term a argumentMax false, .tail b])
  else if ← w.heap.isNil? d then pure s
  else pure ((s.put ['|']).push [.term d argumentMax false])

/-- Does what a task says. -/
def perform? (s : WriteState) : Task → Option WriteState
  | .term c max operand => w.writeTerm? c max operand s
  | .tail c => w.writeTail? c s
  | .atom a => some (s.put (atomText (w.atoms.name a)))
  | .text cs => some (s.put cs)

/-- Does the next task. In the end the loop has the text, and the names given to variables by then, or
`none` if a term was not well-formed. -/
def step (s : WriteState) : Progress WriteState (Option (List Char × Naming)) :=
  match s.tasks with
  | [] => .done (some (s.out, s.given))
  | t :: tasks =>
    match w.perform? { s with tasks } t with
    | some s' => .more s'
    | none => .done none

/-- Where the writing of a term begins, if names have been given to variables before. -/
def start (given : Naming) (c : Cell) : WriteState := ⟨[.term c OpTable.maxPriority false], given, []⟩

end Writer

end PrologTerms
