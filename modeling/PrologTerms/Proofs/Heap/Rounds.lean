import PrologTerms.Heap.Equal
import PrologTerms.Proofs.Heap.Growth
import PrologTerms.Proofs.Iteration
import Mathlib.Data.Finset.Prod

/-!
# How long a comparison takes

A step of a comparison drops a pair of terms that are the same, takes a pair of compound terms apart, or
meets two different symbols. A comparison that ends is done with the parts of a pair before it is done
with the pair, so that no pair is met again inside of itself. Therefore it goes no deeper than there are
pairs of slots, and there are no more parts of a pair than there are slots. The number of rounds leaves
room for as many steps as this allows: a comparison without an answer does not end. What is added to a
heap makes no difference.
-/

namespace PrologTerms.Heap

open Iteration (EndsAfter)

variable {h h' : Heap} {k n m : Nat} {a b : Cell} {p : Cell × Cell} {ps qs : List (Cell × Cell)}
  {r : Option Bool}

/-! ## One step -/

/-- What a step of a comparison leads to. -/
inductive Compared (h : Heap) :
    List (Cell × Cell) → Progress (List (Cell × Cell)) (Option Bool) → Prop
  /-- No pair is left. -/
  | finished : Compared h [] (.done (some true))
  /-- The terms are the same. -/
  | same {a b : Cell} {pairs : List (Cell × Cell)} {v : View} (ha : h.view? a = some v)
      (hb : h.view? b = some v) : Compared h ((a, b) :: pairs) (.more pairs)
  /-- The terms are compound terms with the same functor. -/
  | split {a b : Cell} {pairs : List (Cell × Cell)} {i j : Nat} {f : Functor} {as bs : List Cell}
      (ha : h.view? a = some (.compound i f as)) (hb : h.view? b = some (.compound j f bs))
      (hij : i ≠ j) : Compared h ((a, b) :: pairs) (.more (as.zip bs ++ pairs))
  /-- The terms do not have the same symbol. -/
  | differ {a b : Cell} {pairs : List (Cell × Cell)} {va vb : View} (ha : h.view? a = some va)
      (hb : h.view? b = some vb) (hne : va.head ≠ vb.head) :
      Compared h ((a, b) :: pairs) (.done (some false))

/-- Every step leads to one of these. -/
theorem compared_compareStep (hw : h.WellFormed k)
    (hp : ∀ p ∈ ps, h.IsTerm k p.1 ∧ h.IsTerm k p.2) : h.Compared ps (h.compareStep ps) := by
  unfold compareStep
  split
  · exact .finished
  · next a b pairs =>
    obtain ⟨hta, htb⟩ := hp (a, b) List.mem_cons_self
    obtain ⟨va, ha, -, hfa⟩ := exists_view? hw hta
    obtain ⟨vb, hb, -, hfb⟩ := exists_view? hw htb
    simp only [ha, hb]
    split
    · next e =>
      obtain rfl : va = vb := hfa.eq_of_cell_eq hfb e
      exact .same ha hb
    · next hne =>
      split
      · next i f as j g bs =>
        split
        · next e =>
          subst e
          exact .split ha hb fun e => hne (e ▸ rfl)
        · next hfg => exact .differ ha hb fun e => hfg (Cell.con.inj e)
      · next hstr => exact .differ ha hb (hfa.head_ne hfb hne hstr)

/-- Comparing terms meets terms only. -/
theorem isTerm_compareStep (hw : h.WellFormed k)
    (hp : ∀ p ∈ ps, h.IsTerm k p.1 ∧ h.IsTerm k p.2) :
    h.compareStep ps ≠ .done none ∧ ∀ qs, h.compareStep ps = .more qs →
      ∀ q ∈ qs, h.IsTerm k q.1 ∧ h.IsTerm k q.2 := by
  have hc := compared_compareStep hw hp
  generalize h.compareStep ps = next at hc
  cases hc with
  | finished => exact ⟨by simp, by simp⟩
  | @same a b pairs v ha hb =>
    refine ⟨by simp, fun qs hqs => ?_⟩
    cases hqs
    exact (List.forall_mem_cons.1 hp).2
  | @split a b pairs i j f as bs ha hb hij =>
    obtain ⟨⟨hta, htb⟩, hpairs⟩ := List.forall_mem_cons.1 hp
    refine ⟨by simp, fun qs hqs => ?_⟩
    cases hqs
    refine List.forall_mem_append.2 ⟨fun q hq => ?_, hpairs⟩
    obtain ⟨h₁, h₂⟩ := List.of_mem_zip (a := q.1) (b := q.2) hq
    exact ⟨(view?_spec hw hta ha).2.isTerm_args _ h₁, (view?_spec hw htb hb).2.isTerm_args _ h₂⟩
  | differ => exact ⟨by simp, by simp⟩

/-! ## Comparing one pair after the other -/

theorem compareStep_append (h : Heap) (p : Cell × Cell) (ps qs : List (Cell × Cell)) :
    h.compareStep (p :: ps ++ qs) = (h.compareStep (p :: ps)).map (· ++ qs) id := by
  obtain ⟨a, b⟩ := p
  simp only [List.cons_append, compareStep]
  cases h.view? a with
  | none => rfl
  | some va =>
    cases h.view? b with
    | none => rfl
    | some vb =>
      dsimp only
      split
      · rfl
      · split
        · split
          · rw [Progress.map, List.append_assoc]
          · rfl
        · rfl

/-- A comparison is done with the pairs in front before it comes to those behind, unless it ends before.
-/
theorem endsAfter_append (he : EndsAfter h.compareStep n (ps ++ qs) r) :
    (∃ m, m ≤ n ∧ EndsAfter h.compareStep m ps (some true) ∧
      EndsAfter h.compareStep (n - m) qs r) ∨ EndsAfter h.compareStep n ps r := by
  induction n generalizing ps with
  | zero =>
    cases ps with
    | nil => exact .inl ⟨0, Nat.le_refl 0, ⟨[], .refl _, rfl⟩, he⟩
    | cons p ps =>
      obtain ⟨-, hd⟩ | ⟨_, _, e, -⟩ := he.cases
      · rw [compareStep_append] at hd
        cases hstep : h.compareStep (p :: ps) with
        | more rs => rw [hstep] at hd; cases hd
        | done q =>
          rw [hstep] at hd
          cases hd
          exact .inr ⟨_, .refl _, hstep⟩
      · cases e
  | succ n ih =>
    cases ps with
    | nil => exact .inl ⟨0, Nat.zero_le _, ⟨[], .refl _, rfl⟩, he⟩
    | cons p ps =>
      obtain ⟨e, -⟩ | ⟨_, s, e, hd, hr⟩ := he.cases
      · cases e
      · cases e
        rw [compareStep_append] at hd
        cases hstep : h.compareStep (p :: ps) with
        | done q => rw [hstep] at hd; cases hd
        | more rs =>
          rw [hstep] at hd
          cases hd
          rcases ih hr with ⟨m, hm, hfront, hback⟩ | hfront
          · refine .inl ⟨m + 1, Nat.succ_le_succ hm, hfront.head hstep, ?_⟩
            rwa [Nat.add_sub_add_right]
          · exact .inr (hfront.head hstep)

/-- Comparing several pairs takes no longer than comparing each of them. -/
theorem le_length_mul (bound : Nat) (he : EndsAfter h.compareStep n ps r)
    (hps : ∀ p ∈ ps, ∀ m q, m ≤ n → EndsAfter h.compareStep m [p] q → m ≤ bound) :
    n ≤ ps.length * bound := by
  induction ps generalizing n with
  | nil =>
    obtain ⟨e, -⟩ | ⟨_, _, -, e, -⟩ := he.cases
    · omega
    · cases e
  | cons p ps ih =>
    rw [List.length_cons, Nat.succ_mul]
    have he : EndsAfter h.compareStep n ([p] ++ ps) r := he
    rcases endsAfter_append he with ⟨m, hm, hfront, hback⟩ | hfront
    · have h₁ := hps p List.mem_cons_self m _ hm hfront
      have h₂ := ih hback fun q hq l s hl => hps q (List.mem_cons_of_mem p hq) l s (by omega)
      omega
    · have := hps p List.mem_cons_self n _ (Nat.le_refl n) hfront
      omega

/-! ## How deep it goes -/

/-- The pairs of what the slots hold. -/
def slotPairs (h : Heap) : Finset (Cell × Cell) := h.toList.toFinset ×ˢ h.toList.toFinset

theorem card_slotPairs_le (h : Heap) : h.slotPairs.card ≤ h.size * h.size := by
  have hle := List.toFinset_card_le h.toList
  rw [Arena.length_toList] at hle
  rw [slotPairs, Finset.card_product]
  exact Nat.mul_le_mul hle hle

/-- A pair of terms is taken apart into no more pairs than there are slots, which hold them. -/
theorem split_compareStep (hw : h.WellFormed k) (ha : h.IsTerm k a) (hb : h.IsTerm k b)
    (hstep : h.compareStep [(a, b)] = .more ps) : ps.length ≤ h.size ∧ ∀ p ∈ ps, p ∈ h.slotPairs := by
  have hslots : ∀ {c : Cell} {v : View}, h.IsTerm k c → h.view? c = some v →
      v.args.length ≤ h.size ∧ ∀ d ∈ v.args, d ∈ h.toList.toFinset := by
    intro c v hc hv
    have hfits := (view?_spec hw hc hv).2
    cases v with
    | compound i f args =>
      obtain ⟨hf, hpos, hlen, hat, -⟩ := hfits
      have hlt := (hw.head i f hf hpos).2.1
      refine ⟨by simp only [View.args]; omega, fun d hd => ?_⟩
      obtain ⟨l, hl⟩ := List.mem_iff_getElem?.1 hd
      have hget : args[l]? = h.get? (i + 1 + l) :=
        hat l (hlen ▸ (List.getElem?_eq_some_iff.1 hl).1)
      rw [← Arena.getElem?_toList] at hget
      exact List.mem_toFinset.2 (List.mem_of_getElem? (hget.symm.trans hl))
    | _ => exact ⟨Nat.zero_le _, fun d hd => by cases hd⟩
  have hterms : ∀ p ∈ [(a, b)], h.IsTerm k p.1 ∧ h.IsTerm k p.2 := by simp [ha, hb]
  have hc := compared_compareStep hw hterms
  rw [hstep] at hc
  cases hc with
  | same => exact ⟨Nat.zero_le _, fun p hp => by cases hp⟩
  | split hva hvb =>
    obtain ⟨hla, hma⟩ := hslots ha hva
    obtain ⟨-, hmb⟩ := hslots hb hvb
    rw [List.append_nil, List.length_zip]
    refine ⟨Nat.le_trans (Nat.min_le_left _ _) hla, fun p hp => ?_⟩
    obtain ⟨h₁, h₂⟩ := List.of_mem_zip (a := p.1) (b := p.2) hp
    exact Finset.mem_product.2 ⟨hma _ h₁, hmb _ h₂⟩

open Classical in
/-- The pairs of slots that can be compared in fewer than `n` steps. -/
noncomputable def quickPairs (h : Heap) (n : Nat) : Finset (Cell × Cell) :=
  h.slotPairs.filter fun p => ∃ m q, m < n ∧ EndsAfter h.compareStep m [p] q

theorem mem_quickPairs : p ∈ h.quickPairs n ↔
    p ∈ h.slotPairs ∧ ∃ m q, m < n ∧ EndsAfter h.compareStep m [p] q := by
  simp only [quickPairs, Finset.mem_filter]

/-- A pair takes longer than the pairs that are quicker. -/
theorem card_quickPairs_lt (hp : p ∈ h.slotPairs) (he : EndsAfter h.compareStep m [p] r)
    (hlt : m < n) : (h.quickPairs m).card < (h.quickPairs n).card := by
  refine Finset.card_lt_card (Finset.ssubset_iff_of_subset ?_ |>.2 ⟨p, ?_, ?_⟩)
  · intro q hq
    obtain ⟨hq, l, s, hl, hs⟩ := mem_quickPairs.1 hq
    exact mem_quickPairs.2 ⟨hq, l, s, Nat.lt_trans hl hlt, hs⟩
  · exact mem_quickPairs.2 ⟨hp, m, r, hlt, he⟩
  · intro hq
    obtain ⟨-, l, s, hl, hs⟩ := mem_quickPairs.1 hq
    exact Nat.ne_of_lt hl (hs.unique he).1

/-- How long a comparison takes that ends. -/
theorem le_pow_of_endsAfter (hw : h.WellFormed k) (ha : h.IsTerm k a) (hb : h.IsTerm k b)
    (he : EndsAfter h.compareStep n [(a, b)] r) :
    n ≤ (h.size + 1) ^ ((h.quickPairs n).card + 1) := by
  induction n using Nat.strong_induction_on generalizing a b r with
  | _ n ih =>
    obtain ⟨rfl, -⟩ | ⟨n, ps, rfl, hstep, hr⟩ := he.cases
    · exact Nat.zero_le _
    · obtain ⟨hlen, hslots⟩ := split_compareStep hw ha hb hstep
      have hpair : ∀ p ∈ [(a, b)], h.IsTerm k p.1 ∧ h.IsTerm k p.2 := by simp [ha, hb]
      have hterms := (isTerm_compareStep hw hpair).2 ps hstep
      have hbound := le_length_mul ((h.size + 1) ^ (h.quickPairs (n + 1)).card) hr ?_
      · have hpos : 0 < (h.size + 1) ^ (h.quickPairs (n + 1)).card := Nat.pow_pos (Nat.succ_pos _)
        have := Nat.mul_le_mul_right ((h.size + 1) ^ (h.quickPairs (n + 1)).card) hlen
        rw [Nat.pow_succ, Nat.mul_comm, Nat.succ_mul]
        omega
      · intro p hp m q hm hq
        have hlt : m < n + 1 := Nat.lt_succ_of_le hm
        obtain ⟨h₁, h₂⟩ := hterms p hp
        have hquick := card_quickPairs_lt (hslots p hp) hq hlt
        exact Nat.le_trans (ih m hlt h₁ h₂ hq) (Nat.pow_le_pow_right (Nat.succ_pos _) hquick)

/-- How long a comparison of several pairs takes that ends. -/
theorem le_mul_pow_of_endsAfter (hw : h.WellFormed k)
    (hps : ∀ p ∈ ps, h.IsTerm k p.1 ∧ h.IsTerm k p.2) (he : EndsAfter h.compareStep n ps r) :
    n ≤ ps.length * (h.size + 1) ^ (h.size * h.size + 1) := by
  refine le_length_mul _ he fun p hp m q _ hq => ?_
  have hcard : (h.quickPairs m).card ≤ h.size * h.size :=
    Nat.le_trans (Finset.card_le_card fun p hp => (mem_quickPairs.1 hp).1) h.card_slotPairs_le
  have hpow := Nat.pow_le_pow_right (Nat.succ_pos h.size) (Nat.succ_le_succ hcard)
  exact Nat.le_trans (le_pow_of_endsAfter hw (hps p hp).1 (hps p hp).2 hq) hpow

/-- There is an answer exactly if the comparison ends with it. -/
theorem equal?_eq_some_iff (hw : h.WellFormed k) (ha : h.IsTerm k a) (hb : h.IsTerm k b) {q : Bool} :
    h.equal? a b = some q ↔ ∃ n, EndsAfter h.compareStep n [(a, b)] (some q) := by
  rw [equal?, Option.join_eq_some_iff]
  constructor
  · exact Iteration.endsAfter_of_run
  · rintro ⟨n, he⟩
    have hn := le_mul_pow_of_endsAfter hw (by simp [ha, hb]) he
    rw [List.length_singleton, Nat.one_mul] at hn
    exact Iteration.run_eq_some he
      (Nat.lt_of_le_of_lt (Nat.succ_le_succ hn) (Iteration.pow_sq_lt_two_pow_roundsFor _))

/-- A comparison of terms that ends has an answer. -/
theorem exists_eq_some_of_endsAfter (hw : h.WellFormed k)
    (hps : ∀ p ∈ ps, h.IsTerm k p.1 ∧ h.IsTerm k p.2) (he : EndsAfter h.compareStep n ps r) :
    ∃ q, r = some q := by
  obtain ⟨qs, hsteps, hdone⟩ := he
  have hqs := hsteps.preserves (P := fun qs => ∀ p ∈ qs, h.IsTerm k p.1 ∧ h.IsTerm k p.2)
    (fun _ rs hqs hstep => (isTerm_compareStep hw hqs).2 rs hstep) hps
  cases r with
  | none => exact absurd hdone (isTerm_compareStep hw hqs).1
  | some q => exact ⟨q, rfl⟩

/-- There is no answer exactly if the comparison does not end. -/
theorem equal?_eq_none_iff (hw : h.WellFormed k) (ha : h.IsTerm k a) (hb : h.IsTerm k b) :
    h.equal? a b = none ↔ ∀ n r, ¬ EndsAfter h.compareStep n [(a, b)] r := by
  rw [Option.eq_none_iff_forall_ne_some]
  constructor
  · intro hnone n r he
    obtain ⟨q, rfl⟩ := exists_eq_some_of_endsAfter hw (by simp [ha, hb]) he
    exact hnone q ((equal?_eq_some_iff hw ha hb).2 ⟨n, he⟩)
  · intro hends q hq
    obtain ⟨n, he⟩ := (equal?_eq_some_iff hw ha hb).1 hq
    exact hends n _ he

/-! ## Comparing on a heap that grows -/

theorem Grows.compareStep (hg : h.Grows h') (hw : h.WellFormed k)
    (hps : ∀ p ∈ ps, h.IsTerm k p.1 ∧ h.IsTerm k p.2) : h'.compareStep ps = h.compareStep ps := by
  cases ps with
  | nil => rfl
  | cons p ps =>
    obtain ⟨ha, hb⟩ := hps p List.mem_cons_self
    obtain ⟨va, hva, -⟩ := exists_view? hw ha
    obtain ⟨vb, hvb, -⟩ := exists_view? hw hb
    simp only [Heap.compareStep, hva, hvb, hg.view? hva, hg.view? hvb]

/-- Old terms compare as before. -/
theorem Grows.equal? (hg : h.Grows h') {k' : Nat} (hw : h.WellFormed k) (hw' : h'.WellFormed k')
    (hk : k ≤ k') (ha : h.IsTerm k a) (hb : h.IsTerm k b) : h'.equal? a b = h.equal? a b := by
  have hterms : ∀ p ∈ [(a, b)], h.IsTerm k p.1 ∧ h.IsTerm k p.2 := by simp [ha, hb]
  refine Option.ext fun q => ?_
  rw [equal?_eq_some_iff hw ha hb,
    equal?_eq_some_iff hw' (ha.mono hg.keeps hk) (hb.mono hg.keeps hk)]
  exact exists_congr fun n => Iteration.EndsAfter.congr
    (fun ps qs hps hstep => (isTerm_compareStep hw hps).2 qs hstep) (fun _ hps => hg.compareStep hw hps)
    hterms

end PrologTerms.Heap
