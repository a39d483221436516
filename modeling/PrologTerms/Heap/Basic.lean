import PrologTerms.Heap.Cell

/-!
# The heap

The heap holds the parts of compound terms and the variables. A compound term takes one slot for its
functor and one for each argument; a variable takes one slot, which holds the value once it is
bound. Functions answer `none` where an address has no slot or the handed term is not of the asked
form.
-/

namespace PrologTerms

/-- The slots in which terms are kept. -/
abbrev Heap := Arena Cell

/-- What a term is, seen from outside: its form, with the arguments of a compound term. -/
inductive View
  /-- An unbound variable. -/
  | var (i : Address)
  /-- A compound term with the address of its functor. -/
  | compound (i : Address) (f : Functor) (args : List Cell)
  /-- An atom. -/
  | atom (f : Functor)
  /-- An integer. -/
  | int (n : Int)
  /-- A stand-in for an integer. -/
  | big (n : Nat)
  /-- A stand-in for a term. -/
  | global (n : Nat)
deriving Repr, DecidableEq

/-- The cell of a term of this form. -/
def View.cell : View → Cell
  | .var i => .ref i
  | .compound i _ _ => .str i
  | .atom f => .con f
  | .int n => .int n
  | .big n => .big n
  | .global n => .global n

namespace Heap

/-! ## New terms -/

/-- A new unbound variable. -/
def newVar (h : Heap) : Cell × Heap := (.ref h.size, h.push (.ref h.size))

/-- A new compound term. -/
def newCompound (h : Heap) (f : Functor) (args : List Cell) : Cell × Heap :=
  (.str h.size, (h.push (.con f)).append args)

/-- A new compound term, if there are as many arguments as the functor has places. -/
def newCompound? (h : Heap) (f : Functor) (args : List Cell) : Option (Cell × Heap) :=
  if args.length = f.arity then some (h.newCompound f args) else none

/-- A new compound term, or the atom if the functor has no places. -/
def newTerm? (h : Heap) (f : Functor) (args : List Cell) : Option (Cell × Heap) :=
  if f.arity = 0 then some (.con f, h) else h.newCompound? f args

/-- A new list of the given elements in front of the given tail. -/
def newList (h : Heap) (items : List Cell) (tail : Cell) : Cell × Heap :=
  items.foldr (fun x r => r.2.newCompound .dot [x, r.1]) (tail, h)

/-! ## Looking at terms -/

/-- Follows at most this many bindings of variables. -/
def derefWithin (h : Heap) : Nat → Cell → Option Cell
  | 0, _ => none
  | n + 1, .ref i =>
    match h.get? i with
    | none => none
    | some c => if c = .ref i then some c else h.derefWithin n c
  | _ + 1, c => some c

/-- The value of a bound variable, which is no bound variable itself; every other term is its own
value. A chain of bindings is never longer than the heap, unless it runs in a circle. -/
def deref? (h : Heap) (c : Cell) : Option Cell := h.derefWithin (h.size + 1) c

/-- The functor and the arguments of the compound term at an address. -/
def compound? (h : Heap) (i : Address) : Option (Functor × List Cell) :=
  match h.get? i with
  | some (.con f) => if i + f.arity < h.size then some (f, h.slice (i + 1) f.arity) else none
  | _ => none

/-- The form of a term. -/
def view? (h : Heap) (c : Cell) : Option View :=
  match h.deref? c with
  | none => none
  | some (.ref i) => some (.var i)
  | some (.str i) => (h.compound? i).map fun p => .compound i p.1 p.2
  | some (.con f) => some (.atom f)
  | some (.int n) => some (.int n)
  | some (.big n) => some (.big n)
  | some (.global n) => some (.global n)

/-- The functor of a compound term or an atom; the inner `none` is for all other terms. -/
def functor? (h : Heap) (c : Cell) : Option (Option Functor) :=
  match h.deref? c with
  | none => none
  | some (.con f) => some (some f)
  | some (.str i) =>
    match h.get? i with
    | none => none
    | some (.con f) => some (some f)
    | some _ => some none
  | some _ => some none

/-- The argument of a compound term with the given number, counted from zero. -/
def arg? (h : Heap) (c : Cell) (n : Nat) : Option Cell :=
  match h.deref? c with
  | some (.str i) =>
    match h.get? i with
    | some (.con f) => if n < f.arity then h.get? (i + 1 + n) else none
    | _ => none
  | _ => none

/-- Is the term an unbound variable? -/
def isVar? (h : Heap) (c : Cell) : Option Bool :=
  (h.deref? c).map fun d => match d with
    | .ref _ => true
    | _ => false

/-- Is the term a compound term? -/
def isCompound? (h : Heap) (c : Cell) : Option Bool :=
  (h.deref? c).map fun d => match d with
    | .str _ => true
    | _ => false

/-- Is the term this atom? -/
def isAtom? (h : Heap) (c : Cell) (a : AtomId) : Option Bool :=
  (h.deref? c).map (· == .atom a)

/-- Is the term the empty list? -/
def isNil? (h : Heap) (c : Cell) : Option Bool := h.isAtom? c Atom.nil

/-- Is the term a list cell? -/
def isPair? (h : Heap) (c : Cell) : Option Bool := do
  let compound ← h.isCompound? c
  let f ← h.functor? c
  pure (compound && f == some .dot)

/-- Is the term the empty list or a list cell? -/
def isList? (h : Heap) (c : Cell) : Option Bool := do
  let nil ← h.isNil? c
  let pair ← h.isPair? c
  pure (nil || pair)

end Heap

end PrologTerms
