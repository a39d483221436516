import PrologTerms.Proofs.Store.Sound

/-!
# Undoing bindings

A unification runs in a transaction of its own, so that every variable that it binds is older than
the innermost open transaction, and is put on the trail. Releasing the variables at the end of the
trail therefore gives back the heap before the unification, and this stays true when variables are
bound, terms are made, and a part of the bindings is undone.
-/

namespace PrologTerms

namespace Heap

/-- The order in which variables are released does not matter. -/
theorem release_append (h : Heap) (is js : List Address) :
    h.release (is ++ js) = (h.release js).release is := by
  apply Arena.ext_get?
  intro k
  rw [get?_release, get?_release, get?_release, size_release]
  by_cases hi : k ∈ is <;> by_cases hk : k < h.size <;> simp [hi, hk]

/-- Releasing the variable that was bound undoes the binding. -/
theorem release_set {h : Heap} {i : Nat} (hi : h.get? i = some (.ref i)) (c : Cell) :
    Heap.release (h.set i c) [i] = h := by
  apply Arena.ext_get?
  intro k
  simp only [get?_release, Arena.size_set, Arena.get?_set, List.mem_singleton]
  have hlt := Arena.lt_size_of_get? hi
  by_cases hk : k = i
  · subst hk
    rw [if_pos ⟨rfl, hlt⟩, hi]
  · rw [if_neg fun e => hk e.1, if_neg fun e => hk e.1.symm]

/-- Making terms and releasing older variables can be done in any order. -/
theorem release_grow {h h' : Heap} (hg : h.Grows h') {is : List Address}
    (hi : ∀ i ∈ is, i < h.size) :
    h'.release is = (h.release is).append (h'.toList.drop h.size) := by
  apply Arena.ext_get?
  intro k
  rw [get?_release, Arena.get?_append, size_release, get?_release, List.getElem?_drop,
    Arena.getElem?_toList]
  by_cases hk : k < h.size
  · have hk' := Nat.lt_of_lt_of_le hk hg.size_le
    simp only [hk, hk', if_true, and_true, hg.get?_eq k hk]
  · rw [if_neg fun e => hk (hi k e.1), if_neg hk, Nat.add_sub_cancel' (Nat.le_of_not_lt hk)]

end Heap

namespace Store

/-- The variables bound since the trail was `old` are on the trail behind it; without these bindings
the heap would be `base`. -/
def Covers (old : List Address) (base : Heap) (s : Store) : Prop :=
  ∃ new, s.trail.entries.toList = old ++ new ∧ s.heap.release new = base

variable {s s' : Store} {atoms : Nat} {old : List Address} {base : Heap}

theorem covers_self (s : Store) : s.Covers s.trail.entries.toList s.heap :=
  ⟨[], (List.append_nil _).symm, rfl⟩

theorem Covers.size_eq (h : s.Covers old base) : base.size = s.heap.size := by
  obtain ⟨new, -, rfl⟩ := h
  exact Heap.size_release s.heap new

theorem Covers.le_depth (h : s.Covers old base) : old.length ≤ s.trail.depth := by
  obtain ⟨new, ht, -⟩ := h
  rw [Trail.depth, ← Array.length_toList, ht, List.length_append]
  exact Nat.le_add_right _ _

/-- A binding that is put on the trail. -/
theorem Covers.bind (h : s.Covers old base) {i : Nat} {c : Cell}
    (hi : s.heap.get? i = some (.ref i)) (hb : i < s.boundary) : (s.bind i c).Covers old base := by
  obtain ⟨new, ht, hr⟩ := h
  refine ⟨new ++ [i], ?_, ?_⟩
  · simp [Store.bind, hb, Trail.push, ht]
  · rw [Heap.release_append]
    simp only [Store.bind]
    rw [Heap.release_set hi, hr]

/-- New slots keep what they hold. -/
theorem Covers.grow (h : s.Covers old base) (hv : s.heap.AreVars s.trail.entries.toList)
    {heap : Heap} (hg : s.heap.Grows heap) :
    Covers old (base.append (heap.toList.drop s.heap.size)) { s with heap } := by
  obtain ⟨new, ht, hr⟩ := h
  refine ⟨new, ht, ?_⟩
  have hi : ∀ i ∈ new, i < s.heap.size :=
    fun i hi => (hv i (ht ▸ List.mem_append_right _ hi)).1
  show Heap.release heap new = _
  rw [Heap.release_grow hg hi, hr]

/-- Undoing some of the bindings. -/
theorem Covers.rollback (h : s.Covers old base) (cp : Checkpoint)
    (hcp : old.length ≤ cp.trailDepth) : (s.rollback cp).Covers old base := by
  obtain ⟨new, ht, hr⟩ := h
  refine ⟨new.take (cp.trailDepth - old.length), ?_, ?_⟩
  · simp only [Store.rollback]
    rw [toList_trim, ht, List.take_append, List.take_of_length_le hcp]
  · have hu : s.undone cp = new.drop (cp.trailDepth - old.length) := by
      rw [undone, Trail.since, ht, List.drop_append, List.drop_of_length_le hcp, List.nil_append]
    simp only [Store.rollback, hu]
    rw [← Heap.release_append, List.take_append_drop, hr]

/-- Undoing all of the bindings. -/
theorem Covers.rollback_eq (h : s.Covers old base) (cp : Checkpoint)
    (hcp : cp.trailDepth = old.length) :
    (s.rollback cp).heap = base ∧ (s.rollback cp).trail.entries.toList = old := by
  obtain ⟨new, ht, hr⟩ := h.rollback cp (Nat.le_of_eq hcp.symm)
  have hlen : (s.rollback cp).trail.entries.toList.length = old.length := by
    obtain ⟨all, ha, -⟩ := h
    simp only [Store.rollback]
    rw [toList_trim, ha, hcp, List.take_left']
    rfl
  rw [ht, List.length_append] at hlen
  have hnil : new = [] := List.length_eq_zero_iff.1 (by omega)
  subst hnil
  exact ⟨hr, ht.trans (List.append_nil old)⟩

/-- Unification puts all of its bindings on the trail. -/
theorem Covers.unifyStep (h : s.Covers old base) (hs : s.Sound atoms)
    (hb : s.boundary = s.heap.size) (hstep : Store.unifyStep s = .more s') :
    s'.Covers old base ∧ s'.boundary = s'.heap.size ∧ s'.boundary = s.boundary := by
  have ho := outcome_unifyStep hs
  rw [hstep] at ho
  cases ho with
  | same hp ha hb' => exact ⟨h, hb, rfl⟩
  | @bound a b pairs i v hp hab hv =>
    have hi := (hs.unbound hp hab).1
    refine ⟨Covers.bind h hi (hb ▸ Arena.lt_size_of_get? hi), ?_, rfl⟩
    simp [Store.bind, hb]
  | split hp ha hb' hij => exact ⟨h, hb, rfl⟩

theorem Covers.run (h : s.Covers old base) (hs : s.Sound atoms) (hb : s.boundary = s.heap.size)
    {rounds : Nat} {v : Verdict} (hrun : Iteration.run Store.unifyStep rounds s = some (v, s')) :
    s'.Covers old base ∧ s'.boundary = s.boundary := by
  refine Iteration.run_induction
    (P := fun t => t.Sound atoms ∧ t.Covers old base ∧ t.boundary = t.heap.size ∧
      t.boundary = s.boundary)
    (Q := fun r => r.2.Covers old base ∧ r.2.boundary = s.boundary) ?_ ?_ ⟨hs, h, hb, rfl⟩ hrun
  · rintro t t' ⟨ht, hc, hbt, he⟩ hstep
    obtain ⟨h₁, h₂, h₃⟩ := hc.unifyStep ht hbt hstep
    exact ⟨(sound_unifyStep ht hstep).1, h₁, h₂, h₃.trans he⟩
  · rintro t ⟨v, t'⟩ ⟨ht, hc, -, he⟩ hstep
    have ho := outcome_unifyStep ht
    rw [hstep] at ho
    cases ho with
    | finished hp => exact ⟨hc, he⟩
    | clash hp ha hb' hva hvb hne hv => exact ⟨hc, he⟩

/-- A unification in a transaction of its own puts all of its bindings on the trail. -/
theorem Covers.solve? (h : s.Covers old base) (hs : s.Sound atoms) {a b : Cell}
    (ha : s.heap.IsTerm atoms a) (hb : s.heap.IsTerm atoms b) {v : Verdict}
    (hsolve : s.openTransaction.2.solve? a b = some (v, s')) :
    s'.Covers old base ∧ s'.boundary = s.heap.size := by
  obtain ⟨⟨v', t⟩, hrun, e⟩ := Option.map_eq_some_iff.1 hsolve
  have hs' := hs.openTransaction.of_pending [(a, b)] (by simpa using ⟨ha, hb⟩)
  have hr := Covers.run (s := { s.openTransaction.2 with pending := [(a, b)] }) h hs' rfl hrun
  cases e
  exact hr

/-- An attempt to unify that fails, for whatever reason, leaves the store as it was; one that
succeeds puts all of its bindings on the trail. -/
theorem tryUnify?_spec (hs : s.Sound atoms) {a b : Cell} (ha : s.heap.IsTerm atoms a)
    (hb : s.heap.IsTerm atoms b) {t : Attempt} (h : s.tryUnify? a b = some t) :
    match t with
    | .success cp s' => cp = s.openTransaction.1 ∧
        ∀ old base, s.Covers old base → s'.Covers old base
    | .failure _ _ s' => s' = s := by
  obtain ⟨⟨v, s₂⟩, hsolve, e⟩ := Option.map_eq_some_iff.1 h
  have hall : ∀ old base, s.Covers old base → s₂.Covers old base :=
    fun old base hc => (Covers.solve? hc hs ha hb hsolve).1
  -- a rollback to the beginning of the attempt
  have hroll : s₂.rollback s.openTransaction.1 = s := by
    obtain ⟨hheap, htrail⟩ := (hall _ _ (covers_self s)).rollback_eq
      s.openTransaction.1 (by simp [openTransaction, Trail.depth])
    obtain ⟨-, -, -, pairs, hp, -⟩ := sound_solve? hs.openTransaction ha hb hsolve
    have hpending : (s₂.rollback s.openTransaction.1).pending = s.pending := by
      simp [rollback, hp, openTransaction]
    have htrail' : (s₂.rollback s.openTransaction.1).trail = s.trail :=
      congrArg Trail.mk (Array.toList_inj.1 htrail)
    rw [show s₂.rollback s.openTransaction.1 = ⟨_, _, _, _⟩ from rfl] at hheap htrail' hpending ⊢
    simp only at hheap htrail' hpending
    rw [hheap, htrail', hpending]
    rfl
  cases v with
  | unified =>
    cases e
    exact ⟨rfl, hall⟩
  | clash =>
    cases e
    exact hroll
  | unsupported k =>
    cases e
    exact hroll
  | malformed =>
    cases e
    exact hroll

end Store

end PrologTerms
