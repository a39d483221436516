import PrologTerms.Proofs.Heap.Valuation
import PrologTerms.Proofs.Store.Rounds

/-!
# Unification finds most general unifiers

The valuations of the heap that make all pending pairs equal are the same before and after each step
of unification. Therefore those in the end are those of the beginning, and if there is one then no
step meets a clash. A step makes the pending trees smaller, so that it is also the last that such a
valuation says about the work: it comes to an end.
-/

namespace PrologTerms.Store

/-- The valuation makes the pending pairs equal. -/
def Solves (s : Store) (atoms : AtomTable) (V : Cell → Tree) : Prop :=
  s.heap.Valued atoms V ∧ ∀ p ∈ s.pending, V p.1 = V p.2

/-- The size of the trees that are waiting on one side. -/
def workload (V : Cell → Tree) (s : Store) : Nat := (s.pending.map fun p => (V p.1).size).sum

variable {s s' : Store} {atoms : AtomTable} {V : Cell → Tree}

theorem solves_cons {pairs : List (Cell × Cell)} {a b : Cell} (hp : s.pending = (a, b) :: pairs) :
    s.Solves atoms V ↔ V a = V b ∧ Solves { s with pending := pairs } atoms V := by
  simp only [Solves, hp, List.forall_mem_cons]
  constructor
  · rintro ⟨hV, hab, hpairs⟩
    exact ⟨hab, hV, hpairs⟩
  · rintro ⟨hab, hV, hpairs⟩
    exact ⟨hV, hab, hpairs⟩

theorem solves_append {ps qs : List (Cell × Cell)} :
    Solves { s with pending := ps ++ qs } atoms V ↔
      (∀ p ∈ ps, V p.1 = V p.2) ∧ Solves { s with pending := qs } atoms V := by
  simp only [Solves, List.forall_mem_append]
  constructor
  · rintro ⟨hV, hps, hqs⟩
    exact ⟨hps, hV, hqs⟩
  · rintro ⟨hps, hV, hqs⟩
    exact ⟨hV, hps, hqs⟩

/-- A step neither adds a solution nor loses one. -/
theorem solves_unifyStep (hs : s.Sound atoms.size)
    (h : unifyStep s = .more s') : s'.Solves atoms V ↔ s.Solves atoms V := by
  have ho := outcome_unifyStep hs
  rw [h] at ho
  cases ho with
  | @same a b pairs v hp ha hb =>
    obtain ⟨hta, htb⟩ := hs.pending (a, b) (hp ▸ List.mem_cons_self)
    rw [solves_cons hp]
    constructor
    · intro hsol
      exact ⟨by rw [hsol.1.view hs.heap hta ha, hsol.1.view hs.heap htb hb], hsol⟩
    · exact fun hsol => hsol.2
  | @bound a b pairs i v hp hab hv =>
    obtain ⟨hta, htb⟩ := hs.pending (a, b) (hp ▸ List.mem_cons_self)
    -- in every valuation the two terms are the variable and its value
    have hsides : s.heap.get? i = some (.ref i) ∧ s.heap.IsTerm atoms.size v.cell ∧
        (s.heap.Valued atoms V → (V a = V b ↔ V (.ref i) = V v.cell)) := by
      rcases hab with ⟨ha, hb⟩ | ⟨ha, hb⟩
      · obtain ⟨hda, hi⟩ := Heap.view?_spec hs.heap hta ha
        obtain ⟨hdb, hf⟩ := Heap.view?_spec hs.heap htb hb
        refine ⟨hi, hf.isTerm_cell, fun hV => ?_⟩
        rw [hV.derefWithin hs.heap hta hda, hV.derefWithin hs.heap htb hdb]
        rfl
      · obtain ⟨hda, hf⟩ := Heap.view?_spec hs.heap hta ha
        obtain ⟨hdb, hi⟩ := Heap.view?_spec hs.heap htb hb
        refine ⟨hi, hf.isTerm_cell, fun hV => ?_⟩
        rw [hV.derefWithin hs.heap hta hda, hV.derefWithin hs.heap htb hdb]
        exact eq_comm
    obtain ⟨hi, hc, heq⟩ := hsides
    rw [solves_cons hp]
    simp only [Solves, bind, Heap.valued_set hi hc]
    constructor
    · rintro ⟨⟨hV, hVi⟩, hpairs⟩
      exact ⟨(heq hV).2 hVi, hV, hpairs⟩
    · rintro ⟨hVab, hV, hpairs⟩
      exact ⟨⟨hV, (heq hV).1 hVab⟩, hpairs⟩
  | @split a b pairs i j f as bs hp ha hb hij =>
    obtain ⟨hta, htb⟩ := hs.pending (a, b) (hp ▸ List.mem_cons_self)
    have hla := (Heap.view?_spec hs.heap hta ha).2.2.2.1
    have hlb := (Heap.view?_spec hs.heap htb hb).2.2.2.1
    rw [solves_cons hp, solves_append, ← map_eq_map_iff_of_zip (hla.trans hlb.symm)]
    have heq : s.heap.Valued atoms V → (V a = V b ↔ as.map V = bs.map V) := by
      intro hV
      rw [hV.view hs.heap hta ha, hV.view hs.heap htb hb]
      constructor
      · exact fun e => (Tree.compound.inj e).2
      · exact fun e => congrArg _ e
    constructor
    · rintro ⟨hargs, hV⟩
      exact ⟨(heq hV.1).2 hargs, hV⟩
    · rintro ⟨hVab, hV⟩
      exact ⟨(heq hV.1).1 hVab, hV⟩

/-- A step makes the pending trees of a solution smaller. -/
theorem workload_unifyStep_lt (hs : s.Sound atoms.size) (hV : s.Solves atoms V)
    (h : unifyStep s = .more s') : workload V s' < workload V s := by
  have ho := outcome_unifyStep hs
  rw [h] at ho
  have hdrop : ∀ {a b : Cell} {pairs : List (Cell × Cell)}, s.pending = (a, b) :: pairs →
      workload V s = (V a).size + workload V { s with pending := pairs } := by
    intro a b pairs hp
    simp only [workload, hp, List.map_cons, List.sum_cons]
  cases ho with
  | @same a b pairs v hp ha hb =>
    rw [hdrop hp]
    exact Nat.lt_add_of_pos_left (V a).size_pos
  | @bound a b pairs i v hp hab hv =>
    rw [hdrop hp]
    exact Nat.lt_add_of_pos_left (V a).size_pos
  | @split a b pairs i j f as bs hp ha hb hij =>
    obtain ⟨hta, htb⟩ := hs.pending (a, b) (hp ▸ List.mem_cons_self)
    have hla := (Heap.view?_spec hs.heap hta ha).2.2.2.1
    have hlb := (Heap.view?_spec hs.heap htb hb).2.2.2.1
    have hzip : (as.zip bs).map Prod.fst = as := List.map_fst_zip (Nat.le_of_eq (hla.trans hlb.symm))
    have hargs : ((as.zip bs).map fun p => (V p.1).size) = (as.map V).map Tree.size := by
      rw [← hzip, List.map_map, List.map_map, hzip]
      rfl
    rw [hdrop hp, hV.1.view hs.heap hta ha]
    show workload V { s with pending := as.zip bs ++ pairs } < Tree.size (.compound _ _) + _
    rw [Tree.size_compound]
    simp only [workload, List.map_append, List.sum_append, hargs, View.args]
    omega

/-- If there is a solution, the work ends well. -/
theorem unified_of_solves (hat : atoms.WellFormed) (hs : s.Sound atoms.size)
    (hV : s.Solves atoms V) {v : Verdict} (h : unifyStep s = .done (v, s')) :
    v = .unified ∧ s' = s ∧ s.pending = [] := by
  have ho := outcome_unifyStep hs
  rw [h] at ho
  cases ho with
  | finished hp => exact ⟨rfl, rfl, hp⟩
  | @clash a b pairs va vb v hp ha hb hva hvb hne hv =>
    obtain ⟨hta, htb⟩ := hs.pending (a, b) (hp ▸ List.mem_cons_self)
    have hab : V a = V b := hV.2 (a, b) (hp ▸ List.mem_cons_self)
    rw [hV.1.view hs.heap hta ha, hV.1.view hs.heap htb hb] at hab
    exact absurd (View.plug_inj hat hs.heap (Heap.view?_spec hs.heap hta ha).2
      (Heap.view?_spec hs.heap htb hb).2 hva hvb hab).1 hne

/-! ## The whole work -/

/-- The store `s'` has come from `s` by steps of unification. -/
structure Refines (s s' : Store) (atoms : AtomTable) : Prop where
  /-- It is in order. -/
  sound : s'.Sound atoms.size
  /-- No slot is added. -/
  size_eq : s'.heap.size = s.heap.size
  /-- Terms stay terms. -/
  keeps : s.heap.Keeps s'.heap
  /-- The solutions are the same. -/
  solves : ∀ V, s'.Solves atoms V ↔ s.Solves atoms V
  /-- No bound variable becomes unbound. -/
  unbound : ∀ i : Nat, s'.heap.get? i = some (.ref i) → s.heap.get? i = some (.ref i)

theorem refines_unifyStep (hs : s.Sound atoms.size)
    (h : unifyStep s = .more s') : s.Refines s' atoms := by
  obtain ⟨hs', hk⟩ := sound_unifyStep hs h
  have hsol := fun V => solves_unifyStep (V := V) hs h
  have ho := outcome_unifyStep hs
  rw [h] at ho
  cases ho with
  | same => exact ⟨hs', rfl, hk, hsol, fun i hi => hi⟩
  | @bound a b pairs i v hp hab hv =>
    refine ⟨hs', Arena.size_set _ _ _, hk, hsol, fun j hj => ?_⟩
    simp only [bind, Arena.get?_set] at hj
    split at hj
    · next e =>
      obtain ⟨rfl, -⟩ := e
      exact absurd (hv i (View.eq_var_of_cell (Option.some.inj hj))) (Nat.lt_irrefl i)
    · exact hj
  | split => exact ⟨hs', rfl, hk, hsol, fun i hi => hi⟩

theorem refines_steps (hs : s.Sound atoms.size) {n : Nat}
    (h : Iteration.Steps unifyStep n s s') : s.Refines s' atoms := by
  induction h with
  | refl s => exact ⟨hs, rfl, .refl _, fun _ => Iff.rfl, fun _ hi => hi⟩
  | head hstep _ ih =>
    have h₁ := refines_unifyStep hs hstep
    have h₂ := ih h₁.sound
    exact ⟨h₂.sound, h₂.size_eq.trans h₁.size_eq, h₁.keeps.trans h₂.keeps,
      fun V => (h₂.solves V).trans (h₁.solves V), fun i hi => h₁.unbound i (h₂.unbound i hi)⟩

/-- If there is a solution, the work comes to a good end. -/
theorem exists_endsAfter_of_solves (hat : atoms.WellFormed) (hs : s.Sound atoms.size)
    (hV : s.Solves atoms V) : ∃ n s', Iteration.EndsAfter unifyStep n s (.unified, s') ∧
      s.Refines s' atoms ∧ s'.pending = [] := by
  obtain ⟨n, ⟨v, s'⟩, t, hsteps, hdone⟩ := Iteration.exists_endsAfter
    (P := fun t => t.Sound atoms.size ∧ t.Solves atoms V) (workload V) (fun t t' ht hstep =>
      ⟨⟨(sound_unifyStep ht.1 hstep).1, (solves_unifyStep ht.1 hstep).2 ht.2⟩,
        workload_unifyStep_lt ht.1 ht.2 hstep⟩) ⟨hs, hV⟩
  have hr := refines_steps hs hsteps
  obtain ⟨rfl, rfl, hp⟩ := unified_of_solves hat hr.sound ((hr.solves V).2 hV) hdone
  exact ⟨n, s', ⟨s', hsteps, hdone⟩, hr, hp⟩

/-- A pair of terms with a solution is unified, and the valuations of the heap are the solutions. -/
theorem solve?_of_solves (hat : atoms.WellFormed) (hs : s.Sound atoms.size) {a b : Cell}
    (ha : s.heap.IsTerm atoms.size a) (hb : s.heap.IsTerm atoms.size b)
    (hV : Solves { s with pending := [(a, b)] } atoms V) :
    ∃ s', s.solve? a b = some (.unified, s') ∧
      Refines { s with pending := [(a, b)] } { s' with pending := [] } atoms := by
  have hs₀ := hs.of_pending [(a, b)] (by simpa using ⟨ha, hb⟩)
  obtain ⟨n, s₁, hends, hr, hp⟩ := exists_endsAfter_of_solves hat hs₀ hV
  refine ⟨_, (solve?_eq_some_iff hs ha hb).2 ⟨n, s₁, hends, rfl⟩, ?_⟩
  have e : { s₁ with pending := [] } = s₁ := by rw [← hp]
  exact e ▸ hr

end PrologTerms.Store
