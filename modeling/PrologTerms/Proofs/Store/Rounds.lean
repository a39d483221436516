import PrologTerms.Proofs.Heap.Rounds
import PrologTerms.Proofs.Store.Unify

/-!
# How long unification takes

From one binding to the next the work on pending pairs goes like a comparison of them, and a comparison
that ends is not long. Every binding leaves one unbound variable less, so that there are no more
bindings than slots. The number of rounds leaves room for as many steps as this allows: the work on a
pair of terms has no result only if it does not end.
-/

namespace PrologTerms.Store

open Iteration (EndsAfter)

variable {s s' : Store} {atoms n : Nat} {a b : Cell} {r : Verdict × Store}

/-! ## One step, compared -/

/-- What a step of unification has to do with a step of the comparison of the pending pairs. -/
inductive AsCompared (s : Store) :
    Progress (List (Cell × Cell)) (Option Bool) → Progress Store (Verdict × Store) → Prop
  /-- Both go on with the same pairs. -/
  | more (ps : List (Cell × Cell)) : AsCompared s (.more ps) (.more { s with pending := ps })
  /-- Both come to their end. -/
  | finished : AsCompared s (.done (some true)) (.done (.unified, s))
  /-- There is a difference, and a variable is bound. -/
  | bound {p : Cell × Cell} {pairs : List (Cell × Cell)} {i : Address} {c : Cell}
      (hp : s.pending = p :: pairs) (hi : s.heap.get? i = some (.ref i))
      (hc : ∀ j : Address, c = .ref j → j < i) :
      AsCompared s (.done (some false)) (.more (bind { s with pending := pairs } i c))
  /-- There is a difference that cannot be overcome. -/
  | failed {v : Verdict} {s' : Store} (hv : v ≠ .unified) :
      AsCompared s (.done (some false)) (.done (v, s'))

/-- Different symbols end a comparison. -/
theorem compareStep_of_head_ne (hs : s.Sound atoms) {pairs : List (Cell × Cell)} {va vb : View}
    (hp : s.pending = (a, b) :: pairs) (ha : s.heap.view? a = some va)
    (hb : s.heap.view? b = some vb) (hne : va.head ≠ vb.head) :
    s.heap.compareStep s.pending = .done (some false) := by
  have hc := Heap.compared_compareStep hs.heap hs.pending
  rw [hp] at hc ⊢
  generalize s.heap.compareStep ((a, b) :: pairs) = next at hc
  cases hc with
  | same ha' hb' =>
    rw [ha] at ha'
    rw [hb] at hb'
    exact absurd (congrArg View.head (Option.some.inj (ha'.trans hb'.symm))) hne
  | split ha' hb' =>
    rw [ha, Option.some.injEq] at ha'
    rw [hb, Option.some.injEq] at hb'
    subst ha' hb'
    exact absurd rfl hne
  | differ => rfl

/-- Unification takes the steps of a comparison until the comparison ends. -/
theorem asCompared_unifyStep (hs : s.Sound atoms) :
    s.AsCompared (s.heap.compareStep s.pending) (unifyStep s) := by
  have ho := outcome_unifyStep hs
  generalize unifyStep s = next at ho
  cases ho with
  | finished hp =>
    rw [hp]
    exact .finished
  | @same a b pairs v hp ha hb =>
    have hstep : s.heap.compareStep s.pending = .more pairs := by
      rw [hp, Heap.compareStep, ha, hb]
      exact if_pos rfl
    rw [hstep]
    exact .more pairs
  | @bound a b pairs i v hp hab hv =>
    have hne : (View.var i).head ≠ v.head := fun e =>
      Nat.lt_irrefl i (hv i (by cases v <;> cases e; rfl))
    have hstep : s.heap.compareStep s.pending = .done (some false) := by
      rcases hab with ⟨ha, hb⟩ | ⟨ha, hb⟩
      · exact compareStep_of_head_ne hs hp ha hb hne
      · exact compareStep_of_head_ne hs hp ha hb hne.symm
    rw [hstep]
    exact .bound hp (hs.unbound hp hab).1 fun j hj => hv j (View.eq_var_of_cell hj)
  | @split a b pairs i j f as bs hp ha hb hij =>
    have hstep : s.heap.compareStep s.pending = .more (as.zip bs ++ pairs) := by
      rw [hp, Heap.compareStep, ha, hb]
      exact (if_neg fun e => hij (Cell.str.inj e)).trans (if_pos rfl)
    rw [hstep]
    exact .more _
  | clash hp ha hb hva hvb hne hv =>
    rw [compareStep_of_head_ne hs hp ha hb hne]
    refine .failed ?_
    rcases hv with rfl | ⟨k, rfl⟩ <;> simp

/-! ## From one binding to the next -/

/-- The variables that are not bound. -/
def unbound (s : Store) : Finset Address :=
  (Finset.range s.heap.size).filter fun i => s.heap.get? i = some (.ref i)

theorem mem_unbound {i : Address} : i ∈ s.unbound ↔ s.heap.get? i = some (.ref i) := by
  simp only [unbound, Finset.mem_filter, Finset.mem_range, and_iff_right_iff_imp]
  exact Arena.lt_size_of_get?

theorem card_unbound_le (s : Store) : s.unbound.card ≤ s.heap.size := by
  have hle := Finset.card_filter_le (Finset.range s.heap.size) fun i =>
    s.heap.get? i = some (.ref i)
  rwa [Finset.card_range] at hle

/-- A variable that is bound is not unbound any more. -/
theorem card_unbound_bind_lt {i : Address} {c : Cell} (hi : s.heap.get? i = some (.ref i))
    (hc : ∀ j : Address, c = .ref j → j < i) : (s.bind i c).unbound.card < s.unbound.card := by
  have hget : (s.bind i c).heap.get? i = some c := by
    rw [bind, Arena.get?_set, if_pos ⟨rfl, Arena.lt_size_of_get? hi⟩]
  have hni : i ∉ (s.bind i c).unbound := fun h =>
    Nat.lt_irrefl i (hc i (Option.some.inj (hget.symm.trans (mem_unbound.1 h))))
  refine Finset.card_lt_card ((Finset.ssubset_iff_of_subset fun j hj => ?_).2
    ⟨i, mem_unbound.2 hi, hni⟩)
  have hij : i ≠ j := fun e => hni (e ▸ hj)
  have hj := mem_unbound.1 hj
  rw [bind, Arena.get?_set, if_neg fun e => hij e.1] at hj
  exact mem_unbound.2 hj

/-- A step of a comparison adds no more pairs than there are slots. -/
theorem length_compareStep_le (hs : s.Sound atoms) {ps : List (Cell × Cell)}
    (hstep : s.heap.compareStep s.pending = .more ps) :
    ps.length ≤ s.pending.length + s.heap.size := by
  cases hp : s.pending with
  | nil =>
    rw [hp] at hstep
    cases hstep
  | cons p pairs =>
    obtain ⟨hta, htb⟩ := hs.pending p (hp ▸ List.mem_cons_self)
    have happ : s.heap.compareStep (p :: pairs) = _ := Heap.compareStep_append s.heap p [] pairs
    rw [hp, happ] at hstep
    cases hfirst : s.heap.compareStep [p] with
    | more qs =>
      rw [hfirst] at hstep
      cases hstep
      have hle := (Heap.split_compareStep hs.heap hta htb hfirst).1
      rw [List.length_append, List.length_cons]
      omega
    | done q =>
      rw [hfirst] at hstep
      cases hstep

/-- The work on the pairs pending in `s` goes like their comparison for `m` steps. In the next step a
variable is bound, which leads to `s'`. -/
structure Passage (atoms : Nat) (s : Store) (m : Nat) (s' : Store) : Prop where
  /-- A comparison ends where the variable is bound. -/
  compared : ∃ q, EndsAfter s.heap.compareStep m s.pending q
  /-- The store is in order. -/
  sound : s'.Sound atoms
  /-- No slot is added. -/
  size_eq : s'.heap.size = s.heap.size
  /-- Every step may have added pairs. -/
  length_le : s'.pending.length ≤ s.pending.length + m * s.heap.size
  /-- There are fewer unbound variables. -/
  card_lt : s'.unbound.card < s.unbound.card

/-- The work either ends where a comparison does, or binds a variable there and goes on. -/
theorem compared_or_passage (hs : s.Sound atoms) (he : EndsAfter unifyStep n s r) :
    (∃ q, EndsAfter s.heap.compareStep n s.pending q) ∨
      ∃ m l s', n = m + 1 + l ∧ s.Passage atoms m s' ∧ EndsAfter unifyStep l s' r := by
  induction n generalizing s with
  | zero =>
    obtain ⟨-, hdone⟩ | ⟨_, _, e, -⟩ := he.cases
    · have hc := asCompared_unifyStep hs
      rw [hdone] at hc
      generalize hstep : s.heap.compareStep s.pending = next at hc
      cases hc with
      | finished => exact .inl ⟨_, _, .refl _, hstep⟩
      | failed => exact .inl ⟨_, _, .refl _, hstep⟩
    · cases e
  | succ n ih =>
    obtain ⟨e, -⟩ | ⟨_, s₁, e, hmore, hr⟩ := he.cases
    · cases e
    cases e
    have hs₁ := (sound_unifyStep hs hmore).1
    have hc := asCompared_unifyStep hs
    rw [hmore] at hc
    generalize hstep : s.heap.compareStep s.pending = next at hc
    cases hc with
    | more ps =>
      -- the heap has not changed, so that the comparison and the passage are only one step longer
      rcases ih hs₁ hr with ⟨q, hq⟩ | ⟨m, l, s', rfl, hpass, hl⟩
      · exact .inl ⟨q, hq.head hstep⟩
      · obtain ⟨q, hq⟩ := hpass.compared
        have hadded := length_compareStep_le hs hstep
        have hlen : s'.pending.length ≤ s.pending.length + (m + 1) * s.heap.size := by
          have := hpass.length_le
          rw [Nat.succ_mul]
          dsimp only at this
          omega
        refine .inr ⟨m + 1, l, s', by omega, ?_, hl⟩
        exact ⟨⟨q, hq.head hstep⟩, hpass.sound, hpass.size_eq, hlen, hpass.card_lt⟩
    | @bound p pairs i c hp hi hc =>
      refine .inr ⟨0, n, _, by omega, ?_, hr⟩
      have hlen : pairs.length ≤ s.pending.length + 0 * s.heap.size := by
        rw [hp, List.length_cons]
        omega
      exact ⟨⟨_, _, .refl _, hstep⟩, hs₁, Arena.size_set _ _ _, hlen,
        card_unbound_bind_lt (s := { s with pending := pairs }) hi hc⟩

/-! ## The whole work -/

/-- A bound, for each pending pair, for the steps up to the next binding together with the pairs that
they add. -/
def passageBound (size : Nat) : Nat := (size + 1) ^ (size * size + 2) + 2

theorem passageBound_pos (size : Nat) : 0 < passageBound size := Nat.succ_pos _

theorem succ_le_mul_passageBound (k size : Nat) :
    k * (size + 1) ^ (size * size + 1) + 1 ≤ (k + 1) * passageBound size := by
  have hpow : (size + 1) ^ (size * size + 1) ≤ (size + 1) ^ (size * size + 2) :=
    Nat.pow_le_pow_right (Nat.succ_pos _) (Nat.le_succ _)
  have := Nat.mul_le_mul_left k hpow
  rw [passageBound, Nat.mul_add, Nat.succ_mul]
  omega

/-- The number of rounds for a heap leaves room for a binding of every variable. -/
theorem mul_pow_passageBound_lt (size : Nat) :
    2 * passageBound size ^ (size + 1) < 2 ^ Iteration.roundsFor size := by
  have hbase : passageBound size ≤ 2 ^ (size * (size * size + 2) + 2) :=
    calc passageBound size ≤ 2 ^ (size * (size * size + 2)) + 2 := by
            rw [passageBound, Nat.pow_mul]
            exact Nat.add_le_add_right (Nat.pow_le_pow_left Nat.lt_two_pow_self _) 2
      _ ≤ 2 ^ (size * (size * size + 2) + 2) := by
            have : 0 < 2 ^ (size * (size * size + 2)) := Nat.two_pow_pos _
            rw [Nat.pow_add]
            omega
  calc 2 * passageBound size ^ (size + 1)
      ≤ 2 * (2 ^ (size * (size * size + 2) + 2)) ^ (size + 1) :=
        Nat.mul_le_mul_left 2 (Nat.pow_le_pow_left hbase _)
    _ = 2 ^ ((size * (size * size + 2) + 2) * (size + 1) + 1) := by
        rw [← Nat.pow_mul, Nat.pow_succ']
    _ < 2 ^ Iteration.roundsFor size := by
        refine Nat.pow_lt_pow_right Nat.one_lt_two ?_
        have h : 0 ≤ size := Nat.zero_le size
        simp only [Iteration.roundsFor]
        ring_nf
        nlinarith [pow_nonneg h 2, pow_nonneg h 3, pow_nonneg h 4, pow_nonneg h 5]

/-- The steps up to the next binding, and the pairs that are pending then. -/
theorem Passage.le_mul {m : Nat} (hp : s.Passage atoms m s') (hs : s.Sound atoms) :
    m + 1 + (s'.pending.length + 1) ≤ (s.pending.length + 1) * passageBound s.heap.size := by
  obtain ⟨q, hq⟩ := hp.compared
  have hm := Heap.le_mul_pow_of_endsAfter hs.heap hs.pending hq
  have hadded : m * s.heap.size + m ≤
      s.pending.length * (s.heap.size + 1) ^ (s.heap.size * s.heap.size + 2) :=
    calc m * s.heap.size + m = m * (s.heap.size + 1) := (Nat.mul_succ m s.heap.size).symm
      _ ≤ s.pending.length * (s.heap.size + 1) ^ (s.heap.size * s.heap.size + 1) * (s.heap.size + 1) :=
          Nat.mul_le_mul_right _ hm
      _ = s.pending.length * (s.heap.size + 1) ^ (s.heap.size * s.heap.size + 2) := by
          rw [Nat.mul_assoc, ← Nat.pow_succ]
  have hlen := hp.length_le
  have hpos : 0 < (s.heap.size + 1) ^ (s.heap.size * s.heap.size + 2) := Nat.pow_pos (Nat.succ_pos _)
  rw [passageBound, Nat.mul_add, Nat.succ_mul]
  omega

/-- How long work takes that ends: the number of unbound variables says how often it can go on with
another binding. -/
theorem le_mul_pow_passageBound (hs : s.Sound atoms) (he : EndsAfter unifyStep n s r) :
    n + 1 ≤ (s.pending.length + 1) * passageBound s.heap.size ^ (s.unbound.card + 1) := by
  induction hk : s.unbound.card using Nat.strong_induction_on generalizing s n with
  | _ k ih =>
    subst hk
    rcases compared_or_passage hs he with ⟨q, hq⟩ | ⟨m, l, s', rfl, hpass, hl⟩
    · calc n + 1 ≤ s.pending.length * (s.heap.size + 1) ^ (s.heap.size * s.heap.size + 1) + 1 :=
            Nat.succ_le_succ (Heap.le_mul_pow_of_endsAfter hs.heap hs.pending hq)
        _ ≤ (s.pending.length + 1) * passageBound s.heap.size := succ_le_mul_passageBound _ _
        _ ≤ (s.pending.length + 1) * passageBound s.heap.size ^ (s.unbound.card + 1) :=
            Nat.mul_le_mul_left _ (Nat.le_self_pow (Nat.succ_ne_zero _) _)
    · have hpow : passageBound s.heap.size ^ (s'.unbound.card + 1) ≤
          passageBound s.heap.size ^ s.unbound.card :=
        Nat.pow_le_pow_right (passageBound_pos _) hpass.card_lt
      have hrest := ih _ hpass.card_lt hpass.sound hl rfl
      rw [hpass.size_eq] at hrest
      have hone : 1 ≤ passageBound s.heap.size ^ s.unbound.card := Nat.pow_pos (passageBound_pos _)
      calc m + 1 + (l + 1) ≤ (m + 1) * passageBound s.heap.size ^ s.unbound.card +
              (s'.pending.length + 1) * passageBound s.heap.size ^ s.unbound.card :=
            Nat.add_le_add (Nat.le_mul_of_pos_right _ hone)
              (Nat.le_trans hrest (Nat.mul_le_mul_left _ hpow))
        _ = (m + 1 + (s'.pending.length + 1)) * passageBound s.heap.size ^ s.unbound.card :=
            (Nat.add_mul _ _ _).symm
        _ ≤ (s.pending.length + 1) * passageBound s.heap.size *
              passageBound s.heap.size ^ s.unbound.card :=
            Nat.mul_le_mul_right _ (hpass.le_mul hs)
        _ = (s.pending.length + 1) * passageBound s.heap.size ^ (s.unbound.card + 1) := by
            rw [Nat.mul_assoc, ← Nat.pow_succ']

/-- The work on a pair has a result exactly if it ends with it. -/
theorem solve?_eq_some_iff (hs : s.Sound atoms) (ha : s.heap.IsTerm atoms a)
    (hb : s.heap.IsTerm atoms b) {v : Verdict} :
    s.solve? a b = some (v, s') ↔ ∃ n t, EndsAfter unifyStep n { s with pending := [(a, b)] } (v, t) ∧
      s' = { t with pending := t.pending ++ s.pending } := by
  rw [solve?, Option.map_eq_some_iff]
  constructor
  · rintro ⟨⟨v', t⟩, hrun, e⟩
    cases e
    obtain ⟨n, he⟩ := Iteration.endsAfter_of_run hrun
    exact ⟨n, t, he, rfl⟩
  · rintro ⟨n, t, he, rfl⟩
    have hs₀ := hs.of_pending [(a, b)] (by simpa using ⟨ha, hb⟩)
    refine ⟨(v, t), Iteration.run_eq_some he ?_, rfl⟩
    have hcard : (unbound { s with pending := [(a, b)] }).card ≤ s.heap.size := card_unbound_le _
    calc n + 1 ≤ 2 * passageBound s.heap.size ^ (_ + 1) := le_mul_pow_passageBound hs₀ he
      _ ≤ 2 * passageBound s.heap.size ^ (s.heap.size + 1) :=
          Nat.mul_le_mul_left 2 (Nat.pow_le_pow_right (passageBound_pos _) (Nat.succ_le_succ hcard))
      _ < 2 ^ Iteration.roundsFor s.heap.size := mul_pow_passageBound_lt _

/-- The work on a pair has no result exactly if it does not end. -/
theorem solve?_eq_none_iff (hs : s.Sound atoms) (ha : s.heap.IsTerm atoms a)
    (hb : s.heap.IsTerm atoms b) : s.solve? a b = none ↔
      ∀ n r, ¬ EndsAfter unifyStep n { s with pending := [(a, b)] } r := by
  rw [Option.eq_none_iff_forall_ne_some]
  constructor
  · rintro hnone n ⟨v, t⟩ he
    exact hnone (v, _) ((solve?_eq_some_iff hs ha hb).2 ⟨n, t, he, rfl⟩)
  · rintro hends ⟨v, t⟩ hsolve
    obtain ⟨n, t, he, -⟩ := (solve?_eq_some_iff hs ha hb).1 hsolve
    exact hends n (v, t) he

end PrologTerms.Store
