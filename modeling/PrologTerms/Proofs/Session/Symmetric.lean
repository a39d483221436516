import PrologTerms.Proofs.Iteration
import PrologTerms.Session.Unify

/-!
# Unification is symmetric

It does not matter which of two terms is unified with which. The work on a pair and the work on the
same pair turned round go in lock step: what is pending differs by the sides alone, what is bound, and
in which order, not at all. Only pending pairs have sides, and none is left when the work is over.
-/

namespace PrologTerms

namespace Store

/-- The store with the sides of all pending pairs exchanged. -/
def swap (s : Store) : Store := { s with pending := s.pending.map Prod.swap }

variable {s s' : Store}

@[simp] theorem swap_swap (s : Store) : s.swap.swap = s := by
  simp [swap]

/-- Of two variables the newer one is bound, on whichever side it is. -/
theorem swap_var_var {i j : Address} (hij : i ≠ j) :
    (Progress.more (if j < i then s.swap.bind i (.ref j) else s.swap.bind j (.ref i)) :
        Progress Store (Verdict × Store)) =
      (Progress.more (if i < j then s.bind j (.ref i) else s.bind i (.ref j))).map swap
        (Prod.map id swap) := by
  rcases Nat.lt_or_gt_of_ne hij with hlt | hlt
  · rw [if_neg (Nat.lt_asymm hlt), if_pos hlt]
    rfl
  · rw [if_pos hlt, if_neg (Nat.lt_asymm hlt)]
    rfl

/-- A step treats both sides alike: exchanging them before it or behind it is the same. -/
theorem unifyStep_swap (s : Store) : unifyStep s.swap = (unifyStep s).map swap (Prod.map id swap) := by
  obtain ⟨heap, trail, pending, boundary⟩ := s
  cases pending with
  | nil => rfl
  | cons p pairs =>
    obtain ⟨a, b⟩ := p
    simp only [swap, unifyStep, List.map_cons, Prod.swap_prod_mk]
    cases ha : heap.view? a with
    | none => cases hb : heap.view? b <;> rfl
    | some va =>
      cases hb : heap.view? b with
      | none => rfl
      | some vb =>
        simp only [eq_comm (a := vb.cell)]
        by_cases e : va.cell = vb.cell
        · rw [if_pos e, if_pos e]
          rfl
        · rw [if_neg e, if_neg e]
          cases va with
          | var i =>
            cases vb with
            | var j => exact swap_var_var (s := ⟨heap, trail, pairs, boundary⟩) fun h => e (h ▸ rfl)
            | _ => rfl
          | compound i f as =>
            cases vb with
            | compound j g bs =>
              by_cases hfg : f = g
              · simp [hfg, Progress.map, swap, List.zip_swap]
              · simp [hfg, Ne.symm hfg, Progress.map, swap]
            | _ => rfl
          | _ => cases vb <;> rfl

/-- Work ends well only where no pair is left. -/
theorem pending_of_unified {rounds : Nat} (h : Iteration.run unifyStep rounds s = some (.unified, s')) :
    s'.pending = [] := by
  refine Iteration.run_induction (P := fun _ => True)
    (Q := fun r => r.1 = .unified → r.2.pending = []) (fun _ _ _ _ => trivial) ?_ trivial h rfl
  rintro s ⟨v, s'⟩ - hdone hv
  unfold unifyStep at hdone
  dsimp only at hdone hv
  subst hv
  repeat' split at hdone
  all_goals cases hdone
  assumption

/-- The store in which an attempt to unify two terms sets to work. -/
def attempt (s : Store) (a b : Cell) : Store := ⟨s.heap, s.trail, [(a, b)], s.heap.size⟩

/-- How an attempt ends, given how the work on its pair does. -/
def conclude (s : Store) : Verdict × Store → Attempt
  | (.unified, t) => .success s.openTransaction.1 { t with pending := t.pending ++ s.pending }
  | (v, t) =>
    let t' := { t with pending := t.pending ++ s.pending }
    .failure v (t'.undone s.openTransaction.1) (t'.rollback s.openTransaction.1)

theorem tryUnify?_eq (s : Store) (a b : Cell) : s.tryUnify? a b =
    (Iteration.run unifyStep (Iteration.roundsFor s.heap.size) (s.attempt a b)).map s.conclude := by
  simp only [tryUnify?, solve?, Option.map_map]
  refine Option.map_congr fun ⟨v, t⟩ _ => ?_
  cases v <;> rfl

/-- A rollback drops what is left of the pairs of an attempt, on whichever sides they are. -/
theorem conclude_swap (s : Store) {v : Verdict} {t : Store} (h : v = .unified → t.pending = []) :
    s.conclude (v, t.swap) = s.conclude (v, t) := by
  have hdrop : ∀ ps : List (Cell × Cell),
      (ps ++ s.pending).drop ((ps ++ s.pending).length - s.pending.length) = s.pending := by
    intro ps
    rw [List.length_append, Nat.add_sub_cancel, List.drop_left]
  have hback : ({ t.swap with pending := t.swap.pending ++ s.pending } : Store).rollback
      s.openTransaction.1 =
      ({ t with pending := t.pending ++ s.pending } : Store).rollback s.openTransaction.1 := by
    simp only [rollback, openTransaction, hdrop]
    rfl
  cases v with
  | unified => simp only [conclude, swap, h rfl, List.map_nil]
  | _ => exact congrArg (Attempt.failure _ _) hback

/-- Attempts to unify two terms, whichever of them comes first, are the same. -/
theorem tryUnify?_comm (s : Store) (a b : Cell) : s.tryUnify? a b = s.tryUnify? b a := by
  have hrun := Iteration.run_map unifyStep_swap (Iteration.roundsFor s.heap.size) (s.attempt b a)
  rw [tryUnify?_eq, tryUnify?_eq, show s.attempt a b = (s.attempt b a).swap from rfl, hrun,
    Option.map_map]
  refine Option.map_congr fun ⟨v, t⟩ ht => s.conclude_swap ?_
  rintro rfl
  exact pending_of_unified ht

end Store

namespace Session

/-- Unification is symmetric. Unifying `a` with `b` and `b` with `a` has the same result, leaves the
same session, and takes the same number of steps; if the one does not end, neither does the other. -/
theorem unify?_comm (s : Session) (a b : Cell) :
    s.unify? a b = s.unify? b a ∧ s.tryUnify? a b = s.tryUnify? b a ∧
      ∀ n v t, Iteration.EndsAfter Store.unifyStep n (s.store.attempt a b) (v, t) ↔
        Iteration.EndsAfter Store.unifyStep n (s.store.attempt b a) (v, t.swap) := by
  have hattempt : s.tryUnify? a b = s.tryUnify? b a := by
    rw [tryUnify?, tryUnify?, s.store.tryUnify?_comm]
  refine ⟨by rw [unify?, unify?, hattempt], hattempt, fun n v t => ⟨?_, fun h => ?_⟩⟩
  · exact Iteration.EndsAfter.map Store.unifyStep_swap
  · have hback := h.map Store.unifyStep_swap
    rwa [Prod.map_apply, Store.swap_swap] at hback

end Session

end PrologTerms
