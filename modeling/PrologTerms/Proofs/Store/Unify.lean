import PrologTerms.Proofs.Heap.View
import PrologTerms.Proofs.Iteration
import PrologTerms.Store.Unify

/-!
# What unification does in one step

All that is known of a step of unification is said once, by its outcome: the pair is dropped because
its terms are the same, a variable is bound, the arguments become pending, or the terms clash. From
this it follows that unification keeps the store in order, and never meets a term that is not
well-formed.
-/

namespace PrologTerms

namespace Store

/-- A store in which every cell makes sense, where atoms have numbers below `atoms`. -/
structure Sound (s : Store) (atoms : Nat) : Prop where
  /-- The heap is well-formed. -/
  heap : s.heap.WellFormed atoms
  /-- Only variables are on the trail. -/
  trail : s.heap.AreVars s.trail.entries.toList
  /-- Terms are waiting to be unified. -/
  pending : ∀ p ∈ s.pending, s.heap.IsTerm atoms p.1 ∧ s.heap.IsTerm atoms p.2

/-- What a step of unification leads to. -/
inductive Outcome (s : Store) : Progress Store (Verdict × Store) → Prop
  /-- No pair is left. -/
  | finished (hp : s.pending = []) : Outcome s (.done (.unified, s))
  /-- The terms are the same. -/
  | same {a b : Cell} {pairs : List (Cell × Cell)} {v : View} (hp : s.pending = (a, b) :: pairs)
      (ha : s.heap.view? a = some v) (hb : s.heap.view? b = some v) :
      Outcome s (.more { s with pending := pairs })
  /-- One of the terms is a variable, which is bound to the other one. -/
  | bound {a b : Cell} {pairs : List (Cell × Cell)} {i : Nat} {v : View}
      (hp : s.pending = (a, b) :: pairs)
      (hab : s.heap.view? a = some (.var i) ∧ s.heap.view? b = some v ∨
        s.heap.view? a = some v ∧ s.heap.view? b = some (.var i))
      (hv : ∀ j : Nat, v = .var j → j < i) :
      Outcome s (.more (bind { s with pending := pairs } i v.cell))
  /-- The terms are compound terms with the same functor. -/
  | split {a b : Cell} {pairs : List (Cell × Cell)} {i j : Nat} {f : Functor} {as bs : List Cell}
      (hp : s.pending = (a, b) :: pairs) (ha : s.heap.view? a = some (.compound i f as))
      (hb : s.heap.view? b = some (.compound j f bs)) (hij : i ≠ j) :
      Outcome s (.more { s with pending := as.zip bs ++ pairs })
  /-- The terms are no variables and do not have the same symbol. -/
  | clash {a b : Cell} {pairs : List (Cell × Cell)} {va vb : View} {v : Verdict}
      (hp : s.pending = (a, b) :: pairs) (ha : s.heap.view? a = some va)
      (hb : s.heap.view? b = some vb) (hva : va.isVar = false) (hvb : vb.isVar = false)
      (hne : va.head ≠ vb.head)
      (hv : v = .clash ∨ ∃ k, v = .unsupported k) :
      Outcome s (.done (v, { s with pending := pairs }))

variable {s : Store} {atoms : Nat}

/-- Two unbound variables: the newer one is bound to the older one. -/
theorem outcome_var_var {a b : Cell} {pairs : List (Cell × Cell)} {i j : Nat}
    (hp : s.pending = (a, b) :: pairs) (ha : s.heap.view? a = some (.var i))
    (hb : s.heap.view? b = some (.var j)) (hij : i ≠ j) :
    s.Outcome (.more (if i < j then bind { s with pending := pairs } j (.ref i)
      else bind { s with pending := pairs } i (.ref j))) := by
  split
  · next hlt =>
    refine .bound (v := .var i) hp (.inr ⟨ha, hb⟩) fun k hk => ?_
    cases hk
    exact hlt
  · next hlt =>
    refine .bound (v := .var j) hp (.inl ⟨ha, hb⟩) fun k hk => ?_
    cases hk
    omega

/-- Every step has one of the outcomes. -/
theorem outcome_unifyStep (hs : s.Sound atoms) : s.Outcome (unifyStep s) := by
  unfold unifyStep
  split
  · next hp => exact .finished hp
  · next a b pairs hp =>
    obtain ⟨hta, htb⟩ := hs.pending (a, b) (hp ▸ List.mem_cons_self)
    obtain ⟨va, ha, -, hfa⟩ := Heap.exists_view? hs.heap hta
    obtain ⟨vb, hb, -, hfb⟩ := Heap.exists_view? hs.heap htb
    simp only [ha, hb]
    split
    · next e =>
      obtain rfl : va = vb := hfa.eq_of_cell_eq hfb e
      exact .same hp ha hb
    · next hne =>
      split
      · exact outcome_var_var hp ha hb fun e => hne (e ▸ rfl)
      · next hnv =>
        exact .bound hp (.inl ⟨ha, hb⟩) fun j hj => absurd hj (hnv j)
      · next hnv =>
        exact .bound hp (.inr ⟨ha, hb⟩) fun j hj => absurd hj (hnv j)
      · next i f as j g bs =>
        split
        · next e =>
          subst e
          exact .split hp ha hb fun e => hne (e ▸ rfl)
        · next hfg =>
          exact .clash hp ha hb rfl rfl (fun e => hfg (Cell.con.inj e)) (.inl rfl)
      · exact .clash hp ha hb rfl rfl hne (.inr ⟨_, rfl⟩)
      · exact .clash hp ha hb rfl rfl hne (.inr ⟨_, rfl⟩)
      · next hva hvb _ hstr _ _ =>
        exact .clash hp ha hb (View.isVar_eq_false hva) (View.isVar_eq_false hvb)
          (hfa.head_ne hfb hne hstr) (.inl rfl)

/-! ## The store stays in order -/

/-- Binding a variable keeps the store in order. -/
theorem Sound.bind (hs : s.Sound atoms) {i : Nat} {c : Cell} (hi : s.heap.get? i = some (.ref i))
    (hc : s.heap.IsTerm atoms c) (hle : ∀ j : Nat, c = .ref j → j ≤ i) :
    (s.bind i c).Sound atoms ∧ s.heap.Keeps (s.bind i c).heap := by
  have hh : ¬ s.heap.IsHead i := by
    rintro ⟨f, hf, -⟩
    rw [hi] at hf
    cases hf
  have hk : s.heap.Keeps (s.bind i c).heap := Heap.keeps_set hh hc
  refine ⟨⟨hs.heap.set hh hc hle, ?_, fun p hp => ?_⟩, hk⟩
  · intro j hj
    have hj' : j ∈ s.trail.entries.toList ∨ j = i := by
      simp only [Store.bind] at hj
      split at hj
      · simpa [Trail.push] using hj
      · exact .inl hj
    rcases hj' with hj' | rfl
    · exact (hs.trail.mono hk) j hj'
    · have hlt := Nat.lt_of_lt_of_le (Arena.lt_size_of_get? hi) hk.size_le
      exact ⟨hlt, fun h => hh ((hk.isHead_iff (Arena.lt_size_of_get? hi)).1 h)⟩
  · obtain ⟨h₁, h₂⟩ := hs.pending p hp
    exact ⟨h₁.mono hk (Nat.le_refl _), h₂.mono hk (Nat.le_refl _)⟩

/-- A store without its first pending pairs is in order. -/
theorem Sound.of_pending (hs : s.Sound atoms) (pairs : List (Cell × Cell))
    (h : ∀ p ∈ pairs, s.heap.IsTerm atoms p.1 ∧ s.heap.IsTerm atoms p.2) :
    Sound { s with pending := pairs } atoms :=
  ⟨hs.heap, hs.trail, h⟩

theorem Sound.drop (hs : s.Sound atoms) {p : Cell × Cell} {pairs : List (Cell × Cell)}
    (hp : s.pending = p :: pairs) : Sound { s with pending := pairs } atoms :=
  hs.of_pending pairs fun q hq => hs.pending q (hp ▸ List.mem_cons_of_mem p hq)

/-- A variable that a step binds is not bound yet. -/
theorem Sound.unbound (hs : s.Sound atoms) {a b : Cell} {pairs : List (Cell × Cell)} {i : Nat}
    {v : View} (hp : s.pending = (a, b) :: pairs)
    (hab : s.heap.view? a = some (.var i) ∧ s.heap.view? b = some v ∨
      s.heap.view? a = some v ∧ s.heap.view? b = some (.var i)) :
    s.heap.get? i = some (.ref i) ∧ v.Fits s.heap atoms := by
  obtain ⟨hta, htb⟩ := hs.pending (a, b) (hp ▸ List.mem_cons_self)
  rcases hab with ⟨ha, hb⟩ | ⟨ha, hb⟩
  · exact ⟨(Heap.view?_spec hs.heap hta ha).2, (Heap.view?_spec hs.heap htb hb).2⟩
  · exact ⟨(Heap.view?_spec hs.heap htb hb).2, (Heap.view?_spec hs.heap hta ha).2⟩

/-- What a step makes of a store in order is in order, and has the same heads. -/
theorem sound_unifyStep (hs : s.Sound atoms) {s' : Store} (h : unifyStep s = .more s') :
    s'.Sound atoms ∧ s.heap.Keeps s'.heap := by
  have ho := outcome_unifyStep hs
  rw [h] at ho
  cases ho with
  | same hp ha hb => exact ⟨hs.drop hp, .refl _⟩
  | @bound a b pairs i v hp hab hv =>
    obtain ⟨hi, hfits⟩ := hs.unbound hp hab
    refine (hs.drop hp).bind hi hfits.isTerm_cell fun j hj => ?_
    exact Nat.le_of_lt (hv j (View.eq_var_of_cell hj))
  | @split a b pairs i j f as bs hp ha hb hij =>
    obtain ⟨hta, htb⟩ := hs.pending (a, b) (hp ▸ List.mem_cons_self)
    have has := (Heap.view?_spec hs.heap hta ha).2.isTerm_args
    have hbs := (Heap.view?_spec hs.heap htb hb).2.isTerm_args
    refine ⟨hs.of_pending _ fun p hp' => ?_, .refl _⟩
    rcases List.mem_append.1 hp' with hp' | hp'
    · obtain ⟨h₁, h₂⟩ := List.of_mem_zip (a := p.1) (b := p.2) hp'
      exact ⟨has _ h₁, hbs _ h₂⟩
    · exact hs.pending p (hp ▸ List.mem_cons_of_mem _ hp')

/-- A step that ends the work on a store in order does not meet a term that is not well-formed, and
ends it well only if no pairs are left. -/
theorem sound_done (hs : s.Sound atoms) {v : Verdict} {s' : Store}
    (h : unifyStep s = .done (v, s')) :
    s'.Sound atoms ∧ s'.heap = s.heap ∧ v ≠ .malformed ∧ (v = .unified → s'.pending = []) := by
  have ho := outcome_unifyStep hs
  rw [h] at ho
  cases ho with
  | finished hp => exact ⟨hs, rfl, by simp, fun _ => hp⟩
  | clash hp ha hb hva hvb hne hv =>
    refine ⟨hs.drop hp, rfl, ?_⟩
    rcases hv with rfl | ⟨k, rfl⟩ <;> simp

/-- Working on pending pairs keeps the store in order. -/
theorem sound_steps (hs : s.Sound atoms) {n : Nat} {s' : Store}
    (h : Iteration.Steps unifyStep n s s') : s'.Sound atoms ∧ s.heap.Keeps s'.heap := by
  refine h.preserves (P := fun t => t.Sound atoms ∧ s.heap.Keeps t.heap) ?_ ⟨hs, .refl _⟩
  rintro t t' ⟨ht, hk⟩ hstep
  obtain ⟨ht', hk'⟩ := sound_unifyStep ht hstep
  exact ⟨ht', hk.trans hk'⟩

theorem sound_run (hs : s.Sound atoms) {rounds : Nat} {v : Verdict} {s' : Store}
    (h : Iteration.run unifyStep rounds s = some (v, s')) : s'.Sound atoms ∧
      s.heap.Keeps s'.heap ∧ v ≠ .malformed ∧ (v = .unified → s'.pending = []) := by
  obtain ⟨n, t, ht, hd⟩ := Iteration.endsAfter_of_run h
  obtain ⟨hst, hk⟩ := sound_steps hs ht
  obtain ⟨h₁, h₂, h₃⟩ := sound_done hst hd
  exact ⟨h₁, h₂ ▸ hk, h₃⟩

end Store

end PrologTerms
