import PrologTerms.Heap.Equal
import PrologTerms.Session.Basic

/-!
# Transactions and unification in a session
-/

namespace PrologTerms

namespace Session

/-- Opens a transaction. -/
def openTransaction (s : Session) : Checkpoint × Session :=
  let (cp, store) := s.store.openTransaction
  (cp, { s with store })

/-- Closes a transaction and keeps what was done. -/
def commit (s : Session) (cp : Checkpoint) : Session := { s with store := s.store.commit cp }

/-- Closes a transaction and undoes its bindings, unless the record of earlier bindings has been
forgotten in it. -/
def rollback? (s : Session) (cp : Checkpoint) : Option Session :=
  if cp.trailDepth ≤ s.store.trail.depth then
    some ({ s with store := s.store.rollback cp }.note (.rolledBack (s.store.undone cp)))
  else none

/-- How an attempt to unify two terms ends. -/
inductive Attempt
  /-- The terms are unified; the transaction of the attempt is still open. -/
  | success (cp : Checkpoint) (s : Session)
  /-- The terms are not unified, for the given reason; nothing is bound. -/
  | failure (v : Verdict) (s : Session)

/-- Tries to unify two terms in a transaction of its own. -/
def tryUnify? (s : Session) (a b : Cell) : Option Attempt :=
  (s.store.tryUnify? a b).map fun t =>
    match t with
    | .success cp store => .success cp { s with store }
    | .failure v undone store => .failure v ({ s with store }.note (.rolledBack undone))

/-- Unifies two terms, or leaves the store as it was. -/
def unify? (s : Session) (a b : Cell) : Option (Verdict × Session) :=
  (s.tryUnify? a b).map fun t =>
    match t with
    | .success cp s => (.unified, s.commit cp)
    | .failure v s => (v, s)

/-- Makes variables unbound that were bound between two depths of the trail. -/
def unwind? (s : Session) (start stop : Nat) : Option Session :=
  (s.store.unwind? start stop).map fun store => { s with store }

/-- Forgets the bindings from a depth of the trail on. -/
def trim (s : Session) (depth : Nat) : Session := { s with store := s.store.trim depth }

/-- Are two terms equal? -/
def equal? (s : Session) (a b : Cell) : Option Bool := s.heap.equal? a b

end Session

end PrologTerms
