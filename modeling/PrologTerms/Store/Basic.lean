import PrologTerms.Heap.Trail

/-!
# The store and its transactions

The store is the heap with what is needed to undo bindings. A transaction is opened at a checkpoint;
closing it by a rollback undoes the bindings made since, closing it by a commit keeps them, and
leaves their undoing to the transactions around it. A variable that is newer than the innermost open
transaction needs no undoing, so that its bindings are not recorded.
-/

namespace PrologTerms

/-- The heap, the record of bindings and the work in progress. -/
structure Store where
  /-- The slots of all terms. -/
  heap : Heap := {}
  /-- The bindings that may have to be undone. -/
  trail : Trail := {}
  /-- The pairs of terms that are still to be unified, the next one first. -/
  pending : List (Cell × Cell) := []
  /-- The size of the heap when the innermost open transaction was opened. -/
  boundary : Nat := 0
deriving Repr, DecidableEq

/-- What closing a transaction has to restore. -/
structure Checkpoint where
  /-- The depth of the trail. -/
  trailDepth : Nat
  /-- The number of pending pairs. -/
  pendingDepth : Nat
  /-- The boundary of the transaction around. -/
  boundary : Nat
deriving Repr, DecidableEq

namespace Store

/-- The store without terms. -/
def empty : Store := {}

/-- The number of cells on the work stack; every pending pair takes two. -/
def stackDepth (s : Store) : Nat := 2 * s.pending.length

/-- Binds a variable, and records this if the variable is older than the innermost transaction. -/
def bind (s : Store) (i : Address) (c : Cell) : Store :=
  { s with
    heap := s.heap.set i c
    trail := if i < s.boundary then s.trail.push i else s.trail }

/-- Opens a transaction. -/
def openTransaction (s : Store) : Checkpoint × Store :=
  (⟨s.trail.depth, s.pending.length, s.boundary⟩, { s with boundary := s.heap.size })

/-- Closes a transaction and keeps what was done. -/
def commit (s : Store) (cp : Checkpoint) : Store := { s with boundary := cp.boundary }

/-- The variables that closing the transaction by a rollback would make unbound. -/
def undone (s : Store) (cp : Checkpoint) : List Address := s.trail.since cp.trailDepth

/-- Closes a transaction and undoes its bindings. -/
def rollback (s : Store) (cp : Checkpoint) : Store where
  heap := s.heap.release (s.undone cp)
  trail := s.trail.trim cp.trailDepth
  pending := s.pending.drop (s.pending.length - cp.pendingDepth)
  boundary := cp.boundary

/-- Makes variables unbound that were bound between two depths of the trail. -/
def unwind? (s : Store) (start stop : Nat) : Option Store :=
  (s.trail.unwind? s.heap start stop).map fun h => { s with heap := h }

/-- Forgets the bindings from a depth of the trail on. -/
def trim (s : Store) (depth : Nat) : Store := { s with trail := s.trail.trim depth }

end Store

end PrologTerms
