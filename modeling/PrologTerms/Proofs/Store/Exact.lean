import PrologTerms.Proofs.Heap.Growth
import PrologTerms.Proofs.Store.Undo
import Mathlib.Data.List.Nodup

/-!
# The trail has nothing but bindings

A variable is put on the trail when it is bound, and taken off it when the binding is undone. As only
unbound variables are bound, none gets on the trail twice, and all that are on it are bound. Together
with the fact that no binding is missing this makes the trail an exact record.
-/

namespace PrologTerms.Store

/-- The trail has only bound variables, each of them once. -/
structure Exact (s : Store) : Prop where
  /-- No variable is on the trail twice. -/
  nodup : s.trail.entries.toList.Nodup
  /-- A variable on the trail is bound. -/
  bound : ∀ i ∈ s.trail.entries.toList, ∃ c, s.heap.get? i = some c ∧ c ≠ .ref i

variable {s s' : Store} {atoms : Nat}

/-- An unbound variable is not on the trail. -/
theorem Exact.not_mem (h : s.Exact) {i : Address} (hi : s.heap.get? i = some (.ref i)) :
    i ∉ s.trail.entries.toList := by
  intro hm
  obtain ⟨c, hc, hne⟩ := h.bound i hm
  rw [hi, Option.some.injEq] at hc
  exact hne hc.symm

/-- Binding an unbound variable, whether or not this is put on the trail. -/
theorem Exact.bind (h : s.Exact) {i : Address} {c : Cell} (hi : s.heap.get? i = some (.ref i))
    (hc : c ≠ .ref i) : (s.bind i c).Exact := by
  have hni := h.not_mem hi
  have hold : ∀ j ∈ s.trail.entries.toList, ∃ d, (s.bind i c).heap.get? j = some d ∧ d ≠ .ref j := by
    intro j hj
    have hij : i ≠ j := fun e => hni (e ▸ hj)
    obtain ⟨d, hd, hne⟩ := h.bound j hj
    refine ⟨d, ?_, hne⟩
    rw [Store.bind, Arena.get?_set, if_neg fun e => hij e.1, hd]
  have hnew : (s.bind i c).heap.get? i = some c := by
    rw [Store.bind, Arena.get?_set, if_pos ⟨rfl, Arena.lt_size_of_get? hi⟩]
  -- only variables from before the last transaction are put on the trail
  by_cases hb : i < s.boundary
  · have ht : (s.bind i c).trail.entries.toList = s.trail.entries.toList ++ [i] := by
      simp [Store.bind, hb, Trail.push]
    refine ⟨?_, fun j hj => ?_⟩
    · rw [ht]
      exact h.nodup.append (List.nodup_singleton i) (by simpa using hni)
    · rw [ht, List.mem_append, List.mem_singleton] at hj
      rcases hj with hj | rfl
      · exact hold j hj
      · exact ⟨c, hnew, hc⟩
  · have ht : (s.bind i c).trail = s.trail := by simp [Store.bind, hb]
    exact ⟨ht ▸ h.nodup, fun j hj => hold j (ht ▸ hj)⟩

/-- Adding slots. -/
theorem Exact.grow (h : s.Exact) {heap : Heap} (hg : s.heap.Grows heap) :
    Exact { s with heap } := by
  refine ⟨h.nodup, fun i hi => ?_⟩
  obtain ⟨c, hc, hne⟩ := h.bound i hi
  exact ⟨c, hg.get?_eq_some hc, hne⟩

/-- Undoing the bindings at the end of the trail: the others stay, as no variable is on the trail
twice. -/
theorem Exact.rollback (h : s.Exact) (cp : Checkpoint) : (s.rollback cp).Exact := by
  have ht : (s.rollback cp).trail.entries.toList = s.trail.entries.toList.take cp.trailDepth :=
    toList_trim s.trail cp.trailDepth
  refine ⟨ht ▸ h.nodup.sublist (List.take_sublist ..), fun i hi => ?_⟩
  rw [ht] at hi
  have hni : i ∉ s.undone cp := List.disjoint_take_drop h.nodup (Nat.le_refl _) hi
  obtain ⟨c, hc, hne⟩ := h.bound i (List.mem_of_mem_take hi)
  refine ⟨c, ?_, hne⟩
  show (s.heap.release (s.undone cp)).get? i = some c
  rw [Heap.get?_release, if_neg fun e => hni e.1, hc]

theorem Exact.unifyStep (h : s.Exact) (hs : s.Sound atoms) (hstep : Store.unifyStep s = .more s') :
    s'.Exact := by
  have ho := outcome_unifyStep hs
  rw [hstep] at ho
  cases ho with
  | same hp ha hb => exact ⟨h.nodup, h.bound⟩
  | @bound a b pairs i v hp hab hv =>
    have h' : Exact { s with pending := pairs } := ⟨h.nodup, h.bound⟩
    -- a variable is only bound to an older one, and so never to itself
    refine h'.bind (hs.unbound hp hab).1 fun e => ?_
    exact absurd (hv i (View.eq_var_of_cell e)) (Nat.lt_irrefl i)
  | split hp ha hb hij => exact ⟨h.nodup, h.bound⟩

theorem Exact.run (h : s.Exact) (hs : s.Sound atoms) {rounds : Nat} {v : Verdict}
    (hrun : Iteration.run Store.unifyStep rounds s = some (v, s')) : s'.Exact := by
  refine Iteration.run_induction (P := fun t => t.Sound atoms ∧ t.Exact) (Q := fun r => r.2.Exact)
    ?_ ?_ ⟨hs, h⟩ hrun
  · rintro t t' ⟨ht, he⟩ hstep
    exact ⟨(sound_unifyStep ht hstep).1, he.unifyStep ht hstep⟩
  · rintro t ⟨v, t'⟩ ⟨ht, he⟩ hstep
    have ho := outcome_unifyStep ht
    rw [hstep] at ho
    cases ho with
    | finished hp => exact he
    | clash hp ha hb hva hvb hne hv => exact ⟨he.nodup, he.bound⟩

/-- An attempt to unify, whatever comes of it. -/
theorem Exact.tryUnify? (h : s.Exact) (hs : s.Sound atoms) {a b : Cell}
    (ha : s.heap.IsTerm atoms a) (hb : s.heap.IsTerm atoms b) {t : Attempt}
    (ht : s.tryUnify? a b = some t) : t.store.Exact := by
  have hspec := tryUnify?_spec hs ha hb ht
  obtain ⟨⟨v, s₂⟩, hsolve, e⟩ := Option.map_eq_some_iff.1 ht
  cases t with
  | failure v undone s' =>
    obtain rfl : s' = s := hspec
    exact h
  | success cp s' =>
    obtain ⟨⟨v', t⟩, hrun, e'⟩ := Option.map_eq_some_iff.1 hsolve
    cases e'
    have hs' := hs.openTransaction.of_pending [(a, b)] (by simpa using ⟨ha, hb⟩)
    have h' : Exact { s.openTransaction.2 with pending := [(a, b)] } := ⟨h.nodup, h.bound⟩
    have hend := h'.run hs' hrun
    cases v <;> cases e
    exact ⟨hend.nodup, hend.bound⟩

end PrologTerms.Store
