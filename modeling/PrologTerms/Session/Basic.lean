import PrologTerms.Store.Unify
import PrologTerms.Writing.Naming

/-!
# Sessions

A session is everything that terms live in: the store with the heap, the names of atoms, the
operators, and the names of variables. Terms of one session mean nothing in another one.
-/

namespace PrologTerms

/-- What is worth telling about the work of a session. -/
inductive Event
  /-- A clause was read; this is its term as written afterwards. -/
  | parsed (text : String)
  /-- A transaction was rolled back, and these variables were made unbound. -/
  | rolledBack (undone : List Address)
deriving Repr, DecidableEq

/-- The line that tells of an event. -/
def Event.message : Event → String
  | .parsed text => "DEBUG parsed " ++ text
  | .rolledBack undone =>
    "TRACE rollback: unbinding [" ++ ", ".intercalate (undone.map toString) ++ "]"

/-- All that a collection of terms lives in. -/
structure Session where
  /-- The heap, and what is needed to undo bindings. -/
  store : Store := {}
  /-- The names of atoms. -/
  atoms : AtomTable := .fresh
  /-- The operators. -/
  ops : OpTable := .standard
  /-- The names of variables in the texts they were read from. -/
  names : SourceNames := []
  /-- What has happened, the latest first, if it is recorded. -/
  journal : Option (List Event) := none
deriving Repr, DecidableEq

namespace Session

/-- The heap. -/
def heap (s : Session) : Heap := s.store.heap

/-- Records an event, if events are recorded. -/
def note (s : Session) (e : Event) : Session := { s with journal := s.journal.map (e :: ·) }

/-- A line with the sizes of the heap, the work stack and the trail. -/
def status (s : Session) : String :=
  s!"term_env::status() \x7b heap_size={s.heap.size},stack_size={s.store.stackDepth}" ++
    s!",trail_size={s.store.trail.depth}\x7d"

/-- Defines an operator. -/
def addOp (s : Session) (name : String) (priority : Nat) (cls : OpClass) : Session :=
  { s with ops := s.ops.add name priority cls }

/-! ## New terms -/

/-- A new unbound variable. -/
def newVar (s : Session) : Cell × Session :=
  let (c, heap) := s.heap.newVar
  (c, { s with store := { s.store with heap } })

/-- The functor with the given name and number of arguments. -/
def functor (s : Session) (name : String) (arity : Nat) : Functor × Session :=
  let (a, atoms) := s.atoms.intern name
  (⟨a, arity⟩, { s with atoms })

/-- The atom of a name. -/
def newAtom (s : Session) (name : String) : Cell × Session :=
  let (f, s) := s.functor name 0
  (.con f, s)

/-- A term with the given name and arguments, which is an atom if there are no arguments. -/
def newTerm (s : Session) (name : String) (args : List Cell) : Cell × Session :=
  if args.isEmpty then s.newAtom name
  else
    let (f, s) := s.functor name args.length
    let (c, heap) := s.heap.newCompound f args
    (c, { s with store := { s.store with heap } })

/-- The list of the given elements in front of the given tail. -/
def newList (s : Session) (items : List Cell) (tail : Cell) : Cell × Session :=
  let (c, heap) := s.heap.newList items tail
  (c, { s with store := { s.store with heap } })

/-! ## Looking at terms -/

/-- The tree of a term. -/
def tree? (s : Session) (c : Cell) : Option Tree := s.heap.resolve? s.atoms c

/-- The text of a term. -/
def text? (s : Session) (c : Cell) : Option String := (s.tree? c).map (Tree.text s.ops s.names)

/-- The text of a term as a clause. -/
def clauseText? (s : Session) (c : Cell) : Option String :=
  (s.tree? c).map (Tree.clauseText s.ops s.names)

/-- The name and the number of arguments of a compound term or an atom; the inner `none` is for all
other terms. -/
def functor? (s : Session) (c : Cell) : Option (Option (String × Nat)) :=
  (s.heap.functor? c).map fun f? => f?.map fun f => (s.atoms.name f.name, f.arity)

/-- The name that an unbound variable has in the text it was read from; the inner `none` is for
variables without a name and for all other terms. -/
def varName? (s : Session) (c : Cell) : Option (Option String) :=
  (s.heap.deref? c).map fun d => match d with
    | .ref i => s.names.lookup i
    | _ => none

end Session

end PrologTerms
