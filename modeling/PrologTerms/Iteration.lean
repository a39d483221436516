/-!
# Iteration

A loop is given by what it does in one step. Some loops run for a number of steps that is finite but
exponential in the size of what they work on, so the number is not used to count down: the steps are
made in bursts of which each is twice as long as the one before, and only the bursts are counted.
-/

namespace PrologTerms

/-- What a step of a loop leads to. -/
inductive Progress (σ ρ : Type)
  /-- The loop goes on from a new state. -/
  | more (s : σ)
  /-- The loop ends with a result. -/
  | done (r : ρ)
deriving Repr, DecidableEq

namespace Iteration

variable {σ ρ : Type}

/-- At most `2 ^ k` steps. -/
def burst (step : σ → Progress σ ρ) : Nat → σ → Progress σ ρ
  | 0, s => step s
  | k + 1, s =>
    match burst step k s with
    | .more s' => burst step k s'
    | .done r => .done r

/-- Bursts of `2 ^ k` steps and more, at most as many as `rounds` says; none if the loop is still
going on then. -/
def bursts (step : σ → Progress σ ρ) : (rounds k : Nat) → σ → Option ρ
  | 0, _, _ => none
  | rounds + 1, k, s =>
    match burst step k s with
    | .more s' => bursts step rounds (k + 1) s'
    | .done r => some r

/-- The result of a loop that ends after fewer than `2 ^ rounds` steps. -/
def run (step : σ → Progress σ ρ) (rounds : Nat) (s : σ) : Option ρ := bursts step rounds 0 s

/-- A number of rounds for loops over the terms of a heap of the given size. Every loop over them
that ends at all takes fewer than `2 ^ rounds` steps: a walk from pair to pair of terms cannot meet
a pair again and end, so that it is not deeper than `size ^ 2`, and there is one walk per variable
bound. -/
def roundsFor (size : Nat) : Nat :=
  let n := size + 2
  n * n * n * n * n

end Iteration

end PrologTerms
