import PrologTerms.Proofs.Heap.Equal
import PrologTerms.Proofs.Store.Rounds
import PrologTerms.Proofs.Store.Undo

/-!
# Comparing and unifying

Unification takes the steps of a comparison until the comparison ends. Where it ends because nothing is
left to compare, unification ends, too, and has bound nothing. Where it ends because two symbols are
different, unification fails or binds a variable, which from then on is on the trail.
-/

namespace PrologTerms.Store

variable {s s' : Store} {ps qs : List (Cell × Cell)} {n : Nat}

/-! ## One step -/

/-- Where a comparison of the pending pairs goes on, unification goes on in the same way. -/
theorem unifyStep_of_more {atoms : Nat} (hs : s.Sound atoms)
    (h : s.heap.compareStep s.pending = .more ps) : unifyStep s = .more { s with pending := ps } := by
  have hc := asCompared_unifyStep hs
  rw [h] at hc
  generalize unifyStep s = next at hc ⊢
  cases hc with
  | more => rfl

theorem unifyStep_of_true {atoms : Nat} (hs : s.Sound atoms)
    (h : s.heap.compareStep s.pending = .done (some true)) : unifyStep s = .done (.unified, s) := by
  have hc := asCompared_unifyStep hs
  rw [h] at hc
  generalize unifyStep s = next at hc ⊢
  cases hc with
  | finished => rfl

/-- Where a comparison finds a difference, unification binds a variable or fails. -/
theorem unifyStep_of_false {atoms : Nat} (hs : s.Sound atoms) (hb : s.boundary = s.heap.size)
    (h : s.heap.compareStep s.pending = .done (some false)) :
    (∃ s', unifyStep s = .more s' ∧ s.trail.depth < s'.trail.depth) ∨
      ∃ v s', unifyStep s = .done (v, s') ∧ v ≠ .unified := by
  have hc := asCompared_unifyStep hs
  rw [h] at hc
  generalize unifyStep s = next at hc ⊢
  cases hc with
  | bound hp hi hc =>
    refine .inl ⟨_, rfl, ?_⟩
    simp only [bind, hb, if_pos (Arena.lt_size_of_get? hi), Trail.depth, Trail.push, Array.size_push]
    exact Nat.lt_succ_self _
  | failed hv => exact .inr ⟨_, _, rfl, hv⟩

/-! ## Many steps -/

theorem steps_unifyStep {atoms : Nat} (hs : Sound { s with pending := qs } atoms)
    (h : Iteration.Steps s.heap.compareStep n qs ps) :
    Iteration.Steps unifyStep n { s with pending := qs } { s with pending := ps } := by
  induction h with
  | refl => exact .refl _
  | @head n qs qs' ps hstep _ ih =>
    have hnext : unifyStep { s with pending := qs } = .more { s with pending := qs' } :=
      unifyStep_of_more hs hstep
    exact .head hnext (ih (sound_unifyStep hs hnext).1)

/-- The trail does not become shorter while terms are unified. -/
theorem depth_le_of_endsAfter {atoms : Nat} (hs : s.Sound atoms) (hb : s.boundary = s.heap.size)
    {v : Verdict} (h : Iteration.EndsAfter unifyStep n s (v, s')) : s.trail.depth ≤ s'.trail.depth := by
  obtain ⟨t, hsteps, hdone⟩ := h
  obtain ⟨ht, hcovers, -⟩ := hsteps.preserves
    (P := fun t => t.Sound atoms ∧ t.Covers s.trail.entries.toList s.heap ∧ t.boundary = t.heap.size)
    (fun t t' ⟨ht, hc, hbt⟩ hstep =>
      ⟨(sound_unifyStep ht hstep).1, (hc.unifyStep ht hbt hstep).1, (hc.unifyStep ht hbt hstep).2.1⟩)
    ⟨hs, covers_self s, hb⟩
  have hle := hcovers.le_depth
  have ho := outcome_unifyStep ht
  rw [hdone] at ho
  cases ho with
  | finished => exact hle
  | clash => exact hle

/-! ## A whole unification -/

variable {atoms : AtomTable} {a b : Cell}

/-- Unifying two terms that are equal ends well and changes nothing. -/
theorem solve?_of_equal? (hat : atoms.WellFormed) (hs : s.Sound atoms.size)
    (ha : s.heap.IsFinite atoms a) (hb : s.heap.IsFinite atoms b) (h : s.heap.equal? a b = some true) :
    s.solve? a b = some (.unified, s) := by
  obtain ⟨n, r, ⟨ps, hsteps, hdone⟩, hr, -⟩ := Heap.exists_endsAfter_compare hat hs.heap ha hb
  obtain rfl : true = r := Option.some.inj (h.symm.trans hr)
  have hs₀ : Sound { s with pending := [(a, b)] } atoms.size :=
    hs.of_pending [(a, b)] (by simpa using ⟨ha.isTerm, hb.isTerm⟩)
  have hsteps' := steps_unifyStep hs₀ hsteps
  have hs₁ := (sound_steps hs₀ hsteps').1
  have hend := unifyStep_of_true hs₁ hdone
  have hnil : ps = [] := (sound_done hs₁ hend).2.2.2 rfl
  subst hnil
  exact (solve?_eq_some_iff hs ha.isTerm hb.isTerm).2 ⟨n, _, ⟨_, hsteps', hend⟩, rfl⟩

/-- Unifying two terms that are not equal fails, or leaves a longer trail. -/
theorem equal?_of_solve? (hat : atoms.WellFormed) (hs : s.Sound atoms.size)
    (hbound : s.boundary = s.heap.size) (ha : s.heap.IsFinite atoms a) (hb : s.heap.IsFinite atoms b)
    (h : s.solve? a b = some (.unified, s')) (hle : s'.trail.depth ≤ s.trail.depth) :
    s.heap.equal? a b = some true := by
  obtain ⟨n, r, ⟨ps, hsteps, hdone⟩, hr, -⟩ := Heap.exists_endsAfter_compare hat hs.heap ha hb
  cases r with
  | true => exact hr
  | false =>
    obtain ⟨m, t, hends, rfl⟩ := (solve?_eq_some_iff hs ha.isTerm hb.isTerm).1 h
    have hs₀ : Sound { s with pending := [(a, b)] } atoms.size :=
      hs.of_pending [(a, b)] (by simpa using ⟨ha.isTerm, hb.isTerm⟩)
    have hsteps' := steps_unifyStep hs₀ hsteps
    have hs₁ := (sound_steps hs₀ hsteps').1
    obtain ⟨-, t₁, hrest, hdone₁⟩ := hends.of_steps hsteps'
    generalize m - n = left at hrest
    rcases unifyStep_of_false hs₁ hbound hdone with ⟨s₂, hnext, hlt⟩ | ⟨v, s₂, hnext, hv⟩
    · -- a variable was bound, and is still on the trail in the end
      cases hrest with
      | refl =>
        rw [hnext] at hdone₁
        cases hdone₁
      | head hstep hrest =>
        rw [hnext] at hstep
        cases hstep
        obtain ⟨-, hb₂, -⟩ := (covers_self _).unifyStep hs₁ hbound hnext
        have hdepth := depth_le_of_endsAfter (sound_unifyStep hs₁ hnext).1 hb₂ ⟨t₁, hrest, hdone₁⟩
        exact absurd hle (Nat.not_le.2 (Nat.lt_of_lt_of_le hlt hdepth))
    · cases hrest with
      | refl =>
        rw [hnext] at hdone₁
        cases hdone₁
        exact absurd rfl hv
      | head hstep =>
        rw [hnext] at hstep
        cases hstep

end PrologTerms.Store
