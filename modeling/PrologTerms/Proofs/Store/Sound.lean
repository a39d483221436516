import PrologTerms.Proofs.Store.Unify

/-!
# Transactions keep the store in order

Undoing and forgetting bindings, and whole attempts to unify, lead from a store in order to a store
in order with the same heads.
-/

namespace PrologTerms.Store

variable {s s' : Store} {atoms : Nat}

theorem AreVars.take_drop {h : Heap} {is : List Address} (hv : h.AreVars is) (start stop : Nat) :
    h.AreVars ((is.take stop).drop start) :=
  fun i hi => hv i (List.mem_of_mem_take (List.mem_of_mem_drop hi))

/-- Replacing the heap by one with the same heads. -/
theorem Sound.with_heap (hs : s.Sound atoms) {h : Heap} (hw : h.WellFormed atoms)
    (hk : s.heap.Keeps h) : Sound { s with heap := h } atoms where
  heap := hw
  trail := hs.trail.mono hk
  pending p hp :=
    have ⟨h₁, h₂⟩ := hs.pending p hp
    ⟨h₁.mono hk (Nat.le_refl _), h₂.mono hk (Nat.le_refl _)⟩

theorem toList_trim (t : Trail) (depth : Nat) :
    (t.trim depth).entries.toList = t.entries.toList.take depth := by
  simp [Trail.trim, Array.take_eq_extract]

theorem Sound.trim (hs : s.Sound atoms) (depth : Nat) : (s.trim depth).Sound atoms :=
  ⟨hs.heap, fun i hi => hs.trail i (List.mem_of_mem_take (toList_trim .. ▸ hi)), hs.pending⟩

/-- Undoing some of the bindings on the trail keeps the store in order. -/
theorem Sound.unwind (hs : s.Sound atoms) {start stop : Nat} (h : s.unwind? start stop = some s') :
    s'.Sound atoms ∧ s.heap.Keeps s'.heap := by
  unfold unwind? Trail.unwind? at h
  dsimp only at h
  split at h
  · obtain ⟨hw, hk⟩ := hs.heap.release (AreVars.take_drop hs.trail start stop)
    cases h
    exact ⟨hs.with_heap hw hk, hk⟩
  · cases h

theorem Sound.openTransaction (hs : s.Sound atoms) : s.openTransaction.2.Sound atoms :=
  ⟨hs.heap, hs.trail, hs.pending⟩

theorem Sound.commit (hs : s.Sound atoms) (cp : Checkpoint) : (s.commit cp).Sound atoms :=
  ⟨hs.heap, hs.trail, hs.pending⟩

/-- A rollback keeps the store in order. -/
theorem Sound.rollback (hs : s.Sound atoms) (cp : Checkpoint) :
    (s.rollback cp).Sound atoms ∧ s.heap.Keeps (s.rollback cp).heap := by
  have hv : s.heap.AreVars (s.undone cp) := fun i hi => hs.trail i (List.mem_of_mem_drop hi)
  obtain ⟨hw, hk⟩ := hs.heap.release hv
  have ht := (hs.with_heap hw hk).trim cp.trailDepth
  refine ⟨⟨ht.heap, ht.trail, fun p hp => ?_⟩, hk⟩
  exact ht.pending p (List.mem_of_mem_drop hp)

/-- Working on a pair of terms keeps the store in order, and all that was pending before. -/
theorem sound_solve? (hs : s.Sound atoms) {a b : Cell} (ha : s.heap.IsTerm atoms a)
    (hb : s.heap.IsTerm atoms b) {v : Verdict} (h : s.solve? a b = some (v, s')) :
    s'.Sound atoms ∧ s.heap.Keeps s'.heap ∧ v ≠ .malformed ∧
      ∃ pairs, s'.pending = pairs ++ s.pending ∧ (v = .unified → pairs = []) := by
  unfold solve? at h
  obtain ⟨⟨v', t⟩, hrun, e⟩ := Option.map_eq_some_iff.1 h
  cases e
  have hs' : Sound { s with pending := [(a, b)] } atoms := hs.of_pending _ (by simp [ha, hb])
  obtain ⟨ht, hk, hv, hp⟩ := sound_run hs' hrun
  refine ⟨ht.of_pending _ fun p hp => ?_, hk, hv, t.pending, rfl, hp⟩
  rcases List.mem_append.1 hp with hp | hp
  · exact ht.pending p hp
  · obtain ⟨h₁, h₂⟩ := hs.pending p hp
    exact ⟨h₁.mono hk (Nat.le_refl _), h₂.mono hk (Nat.le_refl _)⟩

namespace Attempt

/-- The store behind an attempt. -/
def store : Attempt → Store
  | .success _ s => s
  | .failure _ _ s => s

/-- Did the attempt fail because a term is not well-formed? -/
def isMalformed : Attempt → Bool
  | .failure .malformed _ _ => true
  | _ => false

end Attempt

/-- An attempt to unify keeps the store in order, whatever comes of it. -/
theorem sound_tryUnify? (hs : s.Sound atoms) {a b : Cell} (ha : s.heap.IsTerm atoms a)
    (hb : s.heap.IsTerm atoms b) {t : Attempt} (h : s.tryUnify? a b = some t) :
    t.store.Sound atoms ∧ s.heap.Keeps t.store.heap ∧ t.isMalformed = false ∧
      t.store.pending = s.pending := by
  unfold tryUnify? at h
  obtain ⟨⟨v, s₂⟩, hsolve, e⟩ := Option.map_eq_some_iff.1 h
  obtain ⟨hs₂, hk, hv, pairs, hp, hu⟩ := sound_solve? hs.openTransaction ha hb hsolve
  obtain ⟨hr, hkr⟩ := hs₂.rollback s.openTransaction.1
  have hpr : (s₂.rollback s.openTransaction.1).pending = s.pending := by
    simp [rollback, hp, openTransaction]
  cases v with
  | unified =>
    cases e
    exact ⟨hs₂, hk, rfl, by rw [Attempt.store, hp, hu rfl]; rfl⟩
  | clash =>
    cases e
    exact ⟨hr, hk.trans hkr, rfl, hpr⟩
  | unsupported k =>
    cases e
    exact ⟨hr, hk.trans hkr, rfl, hpr⟩
  | malformed => exact absurd rfl hv

end PrologTerms.Store
