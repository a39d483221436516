import PrologTerms.Iteration
import Mathlib.Tactic.Ring
import Mathlib.Tactic.Linarith
import Mathlib.Tactic.Positivity
import Mathlib.Order.Basic

/-!
# Loops and the steps they make

A loop is run in bursts whose lengths double. Here the bursts are taken apart again: a loop has a
result exactly if some number of its steps leads to the end, and the result is the one found there.
-/

namespace PrologTerms

/-- What a step leads to, with the state or the result replaced by another one. -/
def Progress.map {σ ρ σ' ρ' : Type} (f : σ → σ') (g : ρ → ρ') : Progress σ ρ → Progress σ' ρ'
  | .more s => .more (f s)
  | .done r => .done (g r)

namespace Iteration

variable {σ ρ : Type} {step : σ → Progress σ ρ}

/-- The loop goes from one state to another in `n` steps. -/
inductive Steps (step : σ → Progress σ ρ) : Nat → σ → σ → Prop
  /-- No step is made. -/
  | refl (s : σ) : Steps step 0 s s
  /-- One step is made, and then the others. -/
  | head {n : Nat} {s s' s'' : σ} (h : step s = .more s') (hs : Steps step n s' s'') :
      Steps step (n + 1) s s''

/-- The loop, begun in the state `s`, comes to its end after `n` steps. -/
def EndsAfter (step : σ → Progress σ ρ) (n : Nat) (s : σ) (r : ρ) : Prop :=
  ∃ s', Steps step n s s' ∧ step s' = .done r

theorem Steps.trans {m n : Nat} {s s' s'' : σ} (h₁ : Steps step m s s')
    (h₂ : Steps step n s' s'') : Steps step (m + n) s s'' := by
  induction h₁ with
  | refl s => simpa using h₂
  | head h _ ih =>
    have := Steps.head h (ih h₂)
    rwa [Nat.add_right_comm] at this

/-- What one step preserves, any number of them preserves. -/
theorem Steps.preserves {P : σ → Prop} (hP : ∀ s s', P s → step s = .more s' → P s') {n : Nat}
    {s s' : σ} (h : Steps step n s s') (hs : P s) : P s' := by
  induction h with
  | refl s => exact hs
  | head h _ ih => exact ih (hP _ _ hs h)

theorem EndsAfter.head {n : Nat} {s s' : σ} {r : ρ} (h : step s = .more s')
    (hr : EndsAfter step n s' r) : EndsAfter step (n + 1) s r := by
  obtain ⟨t, ht, hd⟩ := hr
  exact ⟨t, .head h ht, hd⟩

/-- The first step either ends the loop, or leaves one step less to be made. -/
theorem EndsAfter.cases {n : Nat} {s : σ} {r : ρ} (h : EndsAfter step n s r) :
    n = 0 ∧ step s = .done r ∨ ∃ m s', n = m + 1 ∧ step s = .more s' ∧ EndsAfter step m s' r := by
  obtain ⟨t, ht, hd⟩ := h
  cases ht with
  | refl => exact .inl ⟨rfl, hd⟩
  | head e hs => exact .inr ⟨_, _, rfl, e, t, hs, hd⟩

/-- A loop that makes the same steps wherever it comes to has the same result. -/
theorem EndsAfter.of_eq {step' : σ → Progress σ ρ} {P : σ → Prop}
    (hP : ∀ s s', P s → step s = .more s' → P s') (heq : ∀ s, P s → step' s = step s) {n : Nat} {s : σ}
    {r : ρ} (hs : P s) (h : EndsAfter step n s r) : EndsAfter step' n s r := by
  obtain ⟨t, ht, hd⟩ := h
  induction ht with
  | refl s => exact ⟨s, .refl s, (heq s hs).trans hd⟩
  | head e _ ih => exact .head ((heq _ hs).trans e) (ih (hP _ _ hs e) hd)

theorem EndsAfter.congr {step' : σ → Progress σ ρ} {P : σ → Prop}
    (hP : ∀ s s', P s → step s = .more s' → P s') (heq : ∀ s, P s → step' s = step s) {n : Nat} {s : σ}
    {r : ρ} (hs : P s) : EndsAfter step' n s r ↔ EndsAfter step n s r := by
  constructor
  · refine EndsAfter.of_eq (P := P) (fun t t' ht e => hP t t' ht ?_) (fun t ht => (heq t ht).symm) hs
    rwa [heq t ht] at e
  · exact EndsAfter.of_eq hP heq hs

/-- There is one way only that a loop can go. -/
theorem EndsAfter.unique {n m : Nat} {s : σ} {r r' : ρ} (h : EndsAfter step n s r)
    (h' : EndsAfter step m s r') : n = m ∧ r = r' := by
  obtain ⟨t, ht, hd⟩ := h
  obtain ⟨t', ht', hd'⟩ := h'
  induction ht generalizing m with
  | refl s =>
    cases ht' with
    | refl => rw [hd] at hd'; exact ⟨rfl, Progress.done.inj hd'⟩
    | head e => rw [hd] at e; cases e
  | head e _ ih =>
    cases ht' with
    | refl => rw [e] at hd'; cases hd'
    | head e' hs' =>
      rw [e] at e'
      cases Progress.more.inj e'
      obtain ⟨hn, hr⟩ := ih hd hs'
      exact ⟨by rw [hn], hr⟩

/-- A burst either makes all of its steps or meets the end within them. -/
theorem burst_spec (step : σ → Progress σ ρ) (k : Nat) (s : σ) :
    (∃ s', burst step k s = .more s' ∧ Steps step (2 ^ k) s s') ∨
      ∃ r n, burst step k s = .done r ∧ n < 2 ^ k ∧ EndsAfter step n s r := by
  induction k generalizing s with
  | zero =>
    simp only [burst, pow_zero]
    cases h : step s with
    | more s' => exact .inl ⟨s', rfl, .head h (.refl s')⟩
    | done r => exact .inr ⟨r, 0, rfl, by omega, s, .refl s, h⟩
  | succ k ih =>
    have hk : 2 ^ (k + 1) = 2 ^ k + 2 ^ k := by ring
    rcases ih s with ⟨s', he, hs⟩ | ⟨r, n, he, hn, hr⟩
    · rcases ih s' with ⟨s'', he', hs'⟩ | ⟨r, n, he', hn, t, ht, hd⟩
      · exact .inl ⟨s'', by simp [burst, he, he'], hk ▸ hs.trans hs'⟩
      · exact .inr ⟨r, 2 ^ k + n, by simp [burst, he, he'], by omega, t, hs.trans ht, hd⟩
    · exact .inr ⟨r, n, by simp [burst, he], by omega, hr⟩

/-- A loop with a result has come to its end. -/
theorem endsAfter_of_bursts {rounds k : Nat} {s : σ} {r : ρ}
    (h : bursts step rounds k s = some r) : ∃ n, EndsAfter step n s r := by
  induction rounds generalizing k s with
  | zero => simp [bursts] at h
  | succ rounds ih =>
    rcases burst_spec step k s with ⟨s', he, hs⟩ | ⟨r', n, he, -, hr⟩
    · simp only [bursts, he] at h
      obtain ⟨n, t, ht, hd⟩ := ih h
      exact ⟨2 ^ k + n, t, hs.trans ht, hd⟩
    · simp only [bursts, he, Option.some.injEq] at h
      exact ⟨n, h ▸ hr⟩

theorem endsAfter_of_run {rounds : Nat} {s : σ} {r : ρ} (h : run step rounds s = some r) :
    ∃ n, EndsAfter step n s r :=
  endsAfter_of_bursts h

/-- A state that is reached on the way to the end comes to the same end. -/
theorem EndsAfter.of_steps {m n : Nat} {s s' : σ} {r : ρ} (hs : Steps step m s s')
    (h : EndsAfter step n s r) : m ≤ n ∧ EndsAfter step (n - m) s' r := by
  induction hs generalizing n with
  | refl s => exact ⟨Nat.zero_le n, h⟩
  | head e _ ih =>
    obtain ⟨t, ht, hd⟩ := h
    cases ht with
    | refl => rw [e] at hd; cases hd
    | head e' ht' =>
      rw [e] at e'
      cases Progress.more.inj e'
      obtain ⟨hle, hr⟩ := ih ⟨t, ht', hd⟩
      exact ⟨by omega, by rwa [Nat.add_sub_add_right]⟩

theorem bursts_eq_some {rounds k n : Nat} {s : σ} {r : ρ} (h : EndsAfter step n s r)
    (hn : n + 2 ^ k < 2 ^ (k + rounds)) : bursts step rounds k s = some r := by
  induction rounds generalizing k n s with
  | zero =>
    rw [Nat.add_zero] at hn
    omega
  | succ rounds ih =>
    rcases burst_spec step k s with ⟨s', he, hs⟩ | ⟨r', m, he, -, hr⟩
    · obtain ⟨hle, hr⟩ := h.of_steps hs
      simp only [bursts, he]
      apply ih hr
      have hk : 2 ^ (k + 1) = 2 ^ k + 2 ^ k := by ring
      rw [show k + 1 + rounds = k + (rounds + 1) by omega]
      omega
    · simp only [bursts, he]
      rw [(hr.unique h).2]

/-- A loop that comes to its end soon enough has the result found there. -/
theorem run_eq_some {rounds n : Nat} {s : σ} {r : ρ} (h : EndsAfter step n s r)
    (hn : n + 1 < 2 ^ rounds) : run step rounds s = some r :=
  bursts_eq_some h (by simpa using hn)

/-- What every step preserves holds where the loop ends. -/
theorem run_induction {P : σ → Prop} {Q : ρ → Prop} {rounds : Nat} {s : σ} {r : ρ}
    (hstep : ∀ s s', P s → step s = .more s' → P s')
    (hdone : ∀ s r, P s → step s = .done r → Q r)
    (hs : P s) (h : run step rounds s = some r) : Q r := by
  obtain ⟨n, t, ht, hd⟩ := endsAfter_of_run h
  exact hdone t r (ht.preserves hstep hs) hd

/-- A loop that uses up a measure in each of its steps comes to an end. -/
theorem exists_endsAfter {P : σ → Prop} (μ : σ → Nat)
    (hstep : ∀ s s', P s → step s = .more s' → P s' ∧ μ s' < μ s) {s : σ} (hs : P s) :
    ∃ n r, EndsAfter step n s r := by
  induction hm : μ s using Nat.strong_induction_on generalizing s with
  | _ m ih =>
    cases h : step s with
    | done r => exact ⟨0, r, s, .refl s, h⟩
    | more s' =>
      obtain ⟨hs', hlt⟩ := hstep s s' hs h
      obtain ⟨n, r, hr⟩ := ih (μ s') (hm ▸ hlt) hs' rfl
      exact ⟨n + 1, r, hr.head h⟩

section LockStep

variable {σ' ρ' : Type} {step' : σ' → Progress σ' ρ'} {f : σ → σ'} {g : ρ → ρ'}

/-- A loop whose steps are those of another one, seen in another way, goes in lock step with it. -/
theorem Steps.map (h : ∀ s, step' (f s) = (step s).map f g) {n : Nat} {s t : σ}
    (hs : Steps step n s t) : Steps step' n (f s) (f t) := by
  induction hs with
  | refl s => exact .refl _
  | head e _ ih => exact .head (by rw [h, e]; rfl) ih

theorem EndsAfter.map (h : ∀ s, step' (f s) = (step s).map f g) {n : Nat} {s : σ} {r : ρ}
    (hs : EndsAfter step n s r) : EndsAfter step' n (f s) (g r) := by
  obtain ⟨t, ht, hd⟩ := hs
  exact ⟨f t, ht.map h, by rw [h, hd]; rfl⟩

theorem burst_map (h : ∀ s, step' (f s) = (step s).map f g) (k : Nat) (s : σ) :
    burst step' k (f s) = (burst step k s).map f g := by
  induction k generalizing s with
  | zero => exact h s
  | succ k ih =>
    rw [burst, burst, ih]
    cases burst step k s with
    | more t => exact ih t
    | done r => rfl

theorem bursts_map (h : ∀ s, step' (f s) = (step s).map f g) (rounds k : Nat) (s : σ) :
    bursts step' rounds k (f s) = (bursts step rounds k s).map g := by
  induction rounds generalizing k s with
  | zero => rfl
  | succ rounds ih =>
    rw [bursts, bursts, burst_map h]
    cases burst step k s with
    | more t => exact ih (k + 1) t
    | done r => rfl

/-- Seen in another way, the loop has the same result, or none either. -/
theorem run_map (h : ∀ s, step' (f s) = (step s).map f g) (rounds : Nat) (s : σ) :
    run step' rounds (f s) = (run step rounds s).map g :=
  bursts_map h rounds 0 s

end LockStep

/-- The number of rounds for a heap leaves room for as many steps as there are pairs on the way down from
a pair of terms, if no pair is met twice on one way. -/
theorem pow_sq_lt_two_pow_roundsFor (n : Nat) : (n + 1) ^ (n * n + 1) + 1 < 2 ^ roundsFor n := by
  have hle : (n + 1) ^ (n * n + 1) ≤ 2 ^ (n * (n * n + 1)) := by
    rw [Nat.pow_mul]
    exact Nat.pow_le_pow_left Nat.lt_two_pow_self _
  have hexp : n * (n * n + 1) + 1 < roundsFor n := by
    have hcube : (n + 2) * (n + 2) * (n + 2) ≤ (n + 2) * (n + 2) * (n + 2) * ((n + 2) * (n + 2)) :=
      Nat.le_mul_of_pos_right _ (by positivity)
    have e : roundsFor n = (n + 2) * (n + 2) * (n + 2) * ((n + 2) * (n + 2)) := by
      simp only [roundsFor]
      ring
    rw [e]
    refine Nat.lt_of_lt_of_le ?_ hcube
    nlinarith
  have hlt := Nat.pow_lt_pow_right Nat.one_lt_two hexp
  have hpos : 0 < 2 ^ (n * (n * n + 1)) := by positivity
  rw [Nat.pow_succ] at hlt
  omega

end Iteration

end PrologTerms
