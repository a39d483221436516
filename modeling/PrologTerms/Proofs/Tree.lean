import PrologTerms.Tree
import Mathlib.Algebra.Order.BigOperators.Group.List
import Mathlib.Tactic.Ring

/-!
# Substituting in trees

A substitution puts trees in the places of variables. It makes two trees equal if they become the
same by it.
-/

namespace PrologTerms.Tree

mutual

/-- The tree with trees in the places of its variables. -/
def subst (σ : Address → Tree) : Tree → Tree
  | .var i => σ i
  | .int n => .int n
  | .big n => .big n
  | .global n => .global n
  | .atom name => .atom name
  | .compound name args => .compound name (substAll σ args)

/-- The trees with trees in the places of their variables. -/
def substAll (σ : Address → Tree) : List Tree → List Tree
  | [] => []
  | t :: ts => t.subst σ :: substAll σ ts

end

mutual

/-- The number of symbols and variables in a tree. -/
def size : Tree → Nat
  | .compound _ args => 1 + sizeAll args
  | _ => 1

/-- The number of symbols and variables in several trees. -/
def sizeAll : List Tree → Nat
  | [] => 0
  | t :: ts => t.size + sizeAll ts

end

theorem substAll_eq_map (σ : Address → Tree) (ts : List Tree) :
    substAll σ ts = ts.map (subst σ) := by
  induction ts with
  | nil => rfl
  | cons t ts ih => rw [substAll, ih, List.map_cons]

@[simp] theorem subst_compound (σ : Address → Tree) (name : String) (args : List Tree) :
    (compound name args).subst σ = .compound name (args.map (subst σ)) := by
  rw [subst, substAll_eq_map]

theorem sizeAll_eq_sum (ts : List Tree) : sizeAll ts = (ts.map size).sum := by
  induction ts with
  | nil => rfl
  | cons t ts ih => rw [sizeAll, ih, List.map_cons, List.sum_cons]

theorem size_compound (name : String) (args : List Tree) :
    (compound name args).size = 1 + (args.map size).sum := by
  rw [size, sizeAll_eq_sum]

theorem size_pos (t : Tree) : 0 < t.size := by
  cases t with
  | compound name args => rw [size_compound]; omega
  | _ => exact Nat.one_pos

theorem size_lt_of_mem {name : String} {args : List Tree} {t : Tree} (h : t ∈ args) :
    t.size < (compound name args).size := by
  obtain ⟨front, back, rfl⟩ := List.append_of_mem h
  rw [size_compound, List.map_append, List.sum_append, List.map_cons, List.sum_cons]
  omega

/-- What holds of every tree if it holds of all its parts holds of all trees. -/
@[elab_as_elim]
theorem induction {P : Tree → Prop} (var : ∀ i, P (.var i)) (int : ∀ n, P (.int n))
    (big : ∀ n, P (.big n)) (global : ∀ n, P (.global n)) (atom : ∀ name, P (.atom name))
    (compound : ∀ name args, (∀ t ∈ args, P t) → P (.compound name args)) (t : Tree) : P t := by
  induction hn : t.size using Nat.strongRecOn generalizing t with
  | _ n ih =>
    cases t with
    | compound name args =>
      exact compound name args fun t ht => ih t.size (hn ▸ size_lt_of_mem ht) t rfl
    | var i => exact var i
    | int n => exact int n
    | big n => exact big n
    | global n => exact global n
    | atom name => exact atom name

@[simp] theorem subst_var (t : Tree) : t.subst .var = t := by
  induction t using Tree.induction with
  | compound name args ih =>
    rw [subst_compound, List.map_congr_left ih, List.map_id']
  | _ => rfl

end PrologTerms.Tree
