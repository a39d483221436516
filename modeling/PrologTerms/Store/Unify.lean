import PrologTerms.Iteration
import PrologTerms.Store.Basic

/-!
# Unification

Unification binds variables until two terms are equal. Of two variables the newer is bound to the
older, so that a chain of variables ends at the oldest one. There is no check whether a variable
occurs in the term it is bound to. A failing unification leaves no trace: the bindings made on the
way are undone.
-/

namespace PrologTerms

/-- The terms that stand for something kept elsewhere, which cannot be unified. -/
inductive StandIn
  /-- A stand-in for an integer. -/
  | big
  /-- A stand-in for a term. -/
  | global
deriving Repr, DecidableEq

/-- What is said of an attempt to unify stand-ins. -/
def StandIn.message : StandIn → String
  | .big => "not implemented: unification of BIG cells"
  | .global => "not implemented: unification of GBL cells"

/-- How the work on pending pairs ends. -/
inductive Verdict
  /-- All pairs have been unified. -/
  | unified
  /-- A pair cannot be made equal. -/
  | clash
  /-- A pair of different stand-ins of one kind was met. -/
  | unsupported (k : StandIn)
  /-- A term is not well-formed. -/
  | malformed
deriving Repr, DecidableEq

namespace Store

/-- Unifies the first pending pair as far as its outermost level goes; pairs of arguments become
pending in its place. -/
def unifyStep (s : Store) : Progress Store (Verdict × Store) :=
  match s.pending with
  | [] => .done (.unified, s)
  | (a, b) :: pairs =>
    let s' := { s with pending := pairs }
    match s.heap.view? a, s.heap.view? b with
    | some va, some vb =>
      if va.cell = vb.cell then .more s'
      else
        match va, vb with
        | .var i, .var j => .more (if i < j then s'.bind j (.ref i) else s'.bind i (.ref j))
        | .var i, v => .more (s'.bind i v.cell)
        | v, .var j => .more (s'.bind j v.cell)
        | .compound _ f as, .compound _ g bs =>
          if f = g then .more { s' with pending := as.zip bs ++ pairs } else .done (.clash, s')
        | .big _, .big _ => .done (.unsupported .big, s')
        | .global _, .global _ => .done (.unsupported .global, s')
        | _, _ => .done (.clash, s')
    | _, _ => .done (.malformed, s')

/-- Works on a pair of terms until it is unified or fails, with the pairs already pending left
alone. There is no answer if the work does not end. -/
def solve? (s : Store) (a b : Cell) : Option (Verdict × Store) :=
  (Iteration.run unifyStep (Iteration.roundsFor s.heap.size)
    { s with pending := [(a, b)] }).map fun (v, s') =>
      (v, { s' with pending := s'.pending ++ s.pending })

/-- How an attempt to unify two terms ends. -/
inductive Attempt
  /-- The terms are unified; the transaction of the attempt is still open. -/
  | success (cp : Checkpoint) (s : Store)
  /-- The terms are not unified, for the given reason. The bindings made on the way, which are
  listed, have been undone. -/
  | failure (v : Verdict) (undone : List Address) (s : Store)

/-- Tries to unify two terms in a transaction of its own. -/
def tryUnify? (s : Store) (a b : Cell) : Option Attempt :=
  let (cp, s₁) := s.openTransaction
  (s₁.solve? a b).map fun (v, s₂) =>
    match v with
    | .unified => .success cp s₂
    | v => .failure v (s₂.undone cp) (s₂.rollback cp)

/-- Unifies two terms, or leaves the store as it was. -/
def unify? (s : Store) (a b : Cell) : Option (Verdict × Store) :=
  (s.tryUnify? a b).map fun t =>
    match t with
    | .success cp s' => (.unified, s'.commit cp)
    | .failure v _ s' => (v, s')

end Store

end PrologTerms
