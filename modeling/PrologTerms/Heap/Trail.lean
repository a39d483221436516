import PrologTerms.Heap.Basic

/-!
# The trail

The trail lists the variables that were bound, in the order of binding. Undoing a part of it makes
these variables unbound again.
-/

namespace PrologTerms

/-- The addresses of the variables that were bound. -/
structure Trail where
  /-- The addresses, the earliest binding first. -/
  entries : Array Address := #[]
deriving Repr, DecidableEq

namespace Trail

/-- The number of bindings on the trail. -/
def depth (t : Trail) : Nat := t.entries.size

/-- Records a binding. -/
def push (t : Trail) (i : Address) : Trail := ⟨t.entries.push i⟩

/-- The bindings from a depth on. -/
def since (t : Trail) (start : Nat) : List Address := t.entries.toList.drop start

/-- The bindings from a depth on, if the trail is that deep. -/
def since? (t : Trail) (start : Nat) : Option (List Address) :=
  if start ≤ t.depth then some (t.since start) else none

/-- Forgets the bindings from a depth on. -/
def trim (t : Trail) (depth : Nat) : Trail := ⟨t.entries.take depth⟩

end Trail

/-- Makes the variables at these addresses unbound. -/
def Heap.release (h : Heap) (is : List Address) : Heap :=
  is.foldl (fun h i => h.set i (.ref i)) h

/-- Makes the variables unbound that were bound between two depths of the trail, if there are two
such depths and the addresses are on the heap. -/
def Trail.unwind? (t : Trail) (h : Heap) (start stop : Nat) : Option Heap :=
  let is := t.entries.toList.take stop |>.drop start
  if start ≤ stop ∧ stop ≤ t.depth ∧ is.all (· < h.size) then some (h.release is) else none

end PrologTerms
