import PrologTerms.Proofs.Session.MostGeneral
import Mathlib.Data.List.Perm.Basic

/-!
# Unifying several pairs in any order

Unifying a pair keeps those valuations of the heap that make the pair equal. What is left after
several pairs therefore does not depend on their order, nor on the sides. The valuations fix the trees
of all terms up to the choice of a variable for each class of variables bound to each other; and since
chains of variables lead to older slots, this is the oldest one of the class.
-/

namespace PrologTerms

namespace Heap

variable {h h' : Heap} {atoms : AtomTable}

theorem unbound_of_derefWithin {k n i j : Nat} (hw : h.WellFormed k)
    (hd : h.derefWithin n (.ref i) = some (.ref j)) : h.get? j = some (.ref j) ∧ j ≤ i := by
  induction n generalizing i with
  | zero => cases hd
  | succ n ih =>
    simp only [derefWithin] at hd
    cases hg : h.get? i with
    | none => rw [hg] at hd; cases hd
    | some c =>
      simp only [hg] at hd
      by_cases e : c = .ref i
      · rw [if_pos e, e] at hd
        cases hd
        exact ⟨e ▸ hg, Nat.le_refl (j : Nat)⟩
      · rw [if_neg e] at hd
        cases c with
        | ref m =>
          obtain ⟨hj, hle⟩ := ih hd
          exact ⟨hj, Nat.le_trans hle (hw.older i m hg)⟩
        | _ =>
          cases n with
          | zero => cases hd
          | succ n => cases hd

/-- A variable whose tree is a variable leads to it; it is unbound, and not younger. -/
theorem unbound_of_resolve? {k i j : Nat} (hw : h.WellFormed k)
    (ht : h.resolve? atoms (.ref i) = some (.var j)) : h.get? j = some (.ref j) ∧ j ≤ i := by
  obtain ⟨n, v, -, hv⟩ := exists_view?_of_resolveWithin ht
  obtain ⟨ts, -, hplug⟩ := (resolveWithin_eq_some_iff hv).1 ht
  cases v with
  | var m =>
    cases hplug
    have hd : h.deref? (.ref i) = some (.ref j) := by
      unfold view? at hv
      split at hv
      · cases hv
      · next e =>
        cases hv
        exact e
      · obtain ⟨q, -, hq⟩ := Option.map_eq_some_iff.1 hv
        cases hq
      all_goals cases hv
    exact unbound_of_derefWithin hw hd
  | _ => cases hplug

theorem isTerm_of_unbound {k i : Nat} (hi : h.get? i = some (.ref i)) : h.IsTerm k (.ref i) := by
  refine ⟨Arena.lt_size_of_get? hi, ?_⟩
  rintro ⟨f, hf, -⟩
  rw [hi] at hf
  cases hf

/-- If two heaps have the same terms and the same valuations, then an unbound variable of the second
one stands for itself in the first one as well. -/
theorem valuation_var_of_valued_iff {i : Nat} (hw : h.WellFormed atoms.size)
    (hw' : h'.WellFormed atoms.size) (hac : h.Acyclic) (hac' : h'.Acyclic)
    (hterm : ∀ c, h.IsTerm atoms.size c ↔ h'.IsTerm atoms.size c)
    (hval : ∀ V, h.Valued atoms V ↔ h'.Valued atoms V) (hi : h'.get? i = some (.ref i)) :
    h.valuation atoms .var (.ref i) = .var i := by
  have hti := (hterm _).2 (isTerm_of_unbound hi)
  -- the trees of the second heap are a valuation of the first one
  have hV' := (hval _).2 (valued_valuation (θ := .var) hw' hac')
  obtain ⟨t, ht⟩ := exists_resolve? atoms hw hac hti
  have hti_tree := hV'.eq_subst hw (θ := fun j => h'.valuation atoms .var (.ref j))
    (fun j _ => rfl) hti ht
  rw [valuation_var hi] at hti_tree
  rw [valuation_of_resolve? ht, Tree.subst_var]
  cases t with
  | var j =>
    obtain ⟨hj, hji⟩ := unbound_of_resolve? hw ht
    have htj := (hterm _).1 (isTerm_of_unbound hj)
    obtain ⟨u, hu⟩ := exists_resolve? atoms hw' hac' htj
    have hvar : h'.valuation atoms .var (.ref j) = .var i := hti_tree.symm
    rw [valuation_of_resolve? hu, Tree.subst_var] at hvar
    subst hvar
    obtain ⟨-, hij⟩ := unbound_of_resolve? hw' hu
    rw [Nat.le_antisymm hji hij]
  | compound name args =>
    rw [Tree.subst_compound] at hti_tree
    cases hti_tree
  | _ => cases hti_tree

/-- Heaps with the same terms and the same valuations give the same trees to all terms, down to the
variables in them. -/
theorem resolve?_eq_of_valued_iff (hw : h.WellFormed atoms.size) (hw' : h'.WellFormed atoms.size)
    (hac : h.Acyclic) (hac' : h'.Acyclic)
    (hterm : ∀ c, h.IsTerm atoms.size c ↔ h'.IsTerm atoms.size c)
    (hval : ∀ V, h.Valued atoms V ↔ h'.Valued atoms V) {c : Cell} (hc : h.IsTerm atoms.size c) :
    h.resolve? atoms c = h'.resolve? atoms c := by
  obtain ⟨t, ht⟩ := exists_resolve? atoms hw hac hc
  obtain ⟨t', ht'⟩ := exists_resolve? atoms hw' hac' ((hterm c).1 hc)
  have hV := (hval _).1 (valued_valuation (θ := .var) hw hac)
  have e := hV.eq_subst hw' (θ := .var)
    (fun i hi => valuation_var_of_valued_iff hw hw' hac hac' hterm hval hi) ((hterm c).1 hc) ht'
  rw [valuation_of_resolve? ht, Tree.subst_var, Tree.subst_var] at e
  rw [ht, ht', e]

theorem Keeps.isTerm_iff {k : Nat} (hk : h.Keeps h') (hsize : h'.size = h.size) (c : Cell) :
    h.IsTerm k c ↔ h'.IsTerm k c := by
  constructor
  · exact fun hc => hc.mono hk (Nat.le_refl _)
  · intro hc
    have hhead : ∀ i : Nat, h'.IsHead i → h.IsHead i := fun i hi =>
      (hk.isHead_iff (hsize ▸ hi.lt_size)).1 hi
    cases c with
    | ref i => exact ⟨hsize ▸ hc.1, fun hi => hc.2 ((hk.isHead_iff (hsize ▸ hc.1)).2 hi)⟩
    | str i => exact hhead i hc
    | con f => exact hc
    | int n => exact hc
    | big n => exact hc
    | global n => exact hc

end Heap

namespace Session

variable {s s' : Session}

/-- Unifies the terms of several pairs, one pair after the other, up to the first failure. -/
def unifyAll? (s : Session) : List (Cell × Cell) → Option (Verdict × Session)
  | [] => some (.unified, s)
  | p :: ps =>
    (s.unify? p.1 p.2).bind fun r =>
      match r.1 with
      | .unified => r.2.unifyAll? ps
      | _ => some r

/-- The substitution makes the trees of the terms of each pair equal. -/
def UnifiesAll (s : Session) (θ : Address → Tree) (ps : List (Cell × Cell)) : Prop :=
  ∀ p ∈ ps, ∃ t u, s.tree? p.1 = some t ∧ s.tree? p.2 = some u ∧ Tree.Unifies θ t u

/-- The session `s'` has come from `s` by unifying pairs: of the valuations of its heap those are left
that make the pairs equal, and otherwise only the record of bindings has changed. -/
structure Solved (s : Session) (ps : List (Cell × Cell)) (s' : Session) : Prop where
  /-- Everything is in order, and terms stay terms. -/
  moves : s.Moves s'
  /-- No atom is added. -/
  atoms : s'.atoms = s.atoms
  /-- No slot is added. -/
  size_eq : s'.heap.size = s.heap.size
  /-- The valuations. -/
  valued : ∀ V, s'.heap.Valued s.atoms V ↔ s.heap.Valued s.atoms V ∧ ∀ p ∈ ps, V p.1 = V p.2

/-- Two terms that a valuation makes equal are unified. -/
theorem exists_unify?_of_valued (hs : s.Sound) {a b : Cell} (ha : s.heap.IsTerm s.atoms.size a)
    (hb : s.heap.IsTerm s.atoms.size b) {V : Cell → Tree} (hV : s.heap.Valued s.atoms V)
    (hab : V a = V b) : ∃ s', s.unify? a b = some (.unified, s') ∧ s.Solved [(a, b)] s' := by
  obtain ⟨store, hsolve, hr⟩ := Store.solve?_of_solves (V := V) hs.atoms
    hs.store.openTransaction ha hb ⟨hV, by simpa using hab⟩
  have hu := unify?_of_solve? hsolve
  refine ⟨_, hu, (moves_unify? hs ha hb hu).1, rfl, hr.size_eq, fun V => ?_⟩
  have hsol := hr.solves V
  simp only [Store.Solves, List.not_mem_nil, false_implies, implies_true, and_true] at hsol
  exact hsol

/-- Pairs that a valuation makes equal are unified, each in what the ones before it have left. -/
theorem exists_unifyAll?_of_valued {ps : List (Cell × Cell)} (hs : s.Sound)
    (hps : ∀ p ∈ ps, s.heap.IsTerm s.atoms.size p.1 ∧ s.heap.IsTerm s.atoms.size p.2)
    {V : Cell → Tree} (hV : s.heap.Valued s.atoms V) (heq : ∀ p ∈ ps, V p.1 = V p.2) :
    ∃ s', s.unifyAll? ps = some (.unified, s') ∧ s.Solved ps s' := by
  induction ps generalizing s with
  | nil => exact ⟨s, rfl, hs.refl, rfl, rfl, fun V => by simp⟩
  | cons p ps ih =>
    obtain ⟨⟨ha, hb⟩, hps⟩ := List.forall_mem_cons.1 hps
    obtain ⟨hab, heq⟩ := List.forall_mem_cons.1 heq
    obtain ⟨s₁, hu, h₁⟩ := exists_unify?_of_valued hs ha hb hV hab
    have hV₁ : s₁.heap.Valued s₁.atoms V := by
      rw [h₁.atoms]
      exact (h₁.valued V).2 ⟨hV, by simpa using hab⟩
    obtain ⟨s₂, hall, h₂⟩ := ih h₁.moves.sound
      (fun q hq => ⟨h₁.moves.isTerm (hps q hq).1, h₁.moves.isTerm (hps q hq).2⟩) hV₁ heq
    refine ⟨s₂, ?_, ⟨h₂.moves.sound, h₁.moves.heap.trans h₂.moves.heap,
      h₁.moves.atoms.trans h₂.moves.atoms⟩, h₂.atoms.trans h₁.atoms,
      h₂.size_eq.trans h₁.size_eq, fun V => ?_⟩
    · simp only [unifyAll?, hu, Option.bind_some, hall]
    · have e₁ := h₁.valued V
      have e₂ := h₂.valued V
      rw [h₁.atoms] at e₂
      rw [e₂, e₁, List.forall_mem_singleton, List.forall_mem_cons, and_assoc]

/-- Sessions that pairs with the same solutions lead to give the same trees to all terms. -/
theorem Solved.tree?_eq {s₁ s₂ : Session} {ps qs : List (Cell × Cell)} (h₁ : s.Solved ps s₁)
    (h₂ : s.Solved qs s₂) {V : Cell → Tree} (hV : s₁.heap.Valued s.atoms V)
    (hpq : ∀ V : Cell → Tree, (∀ p ∈ ps, V p.1 = V p.2) ↔ ∀ q ∈ qs, V q.1 = V q.2) {c : Cell}
    (hc : s.heap.IsTerm s.atoms.size c) : s₁.tree? c = s₂.tree? c := by
  have hval : ∀ V, s₁.heap.Valued s.atoms V ↔ s₂.heap.Valued s.atoms V := by
    intro V
    rw [h₁.valued, h₂.valued, hpq]
  have hw₁ : s₁.heap.WellFormed s.atoms.size := h₁.atoms ▸ h₁.moves.sound.store.heap
  have hw₂ : s₂.heap.WellFormed s.atoms.size := h₂.atoms ▸ h₂.moves.sound.store.heap
  have ht₁ := h₁.moves.heap.isTerm_iff (k := s.atoms.size) h₁.size_eq
  have ht₂ := h₂.moves.heap.isTerm_iff (k := s.atoms.size) h₂.size_eq
  have e := Heap.resolve?_eq_of_valued_iff hw₁ hw₂ (hV.acyclic hw₁)
    (((hval V).1 hV).acyclic hw₂) (fun c => (ht₁ c).symm.trans (ht₂ c)) hval ((ht₁ c).1 hc)
  rw [tree?, tree?, h₁.atoms, h₂.atoms]
  exact e

/-- The variable that stands for a class of variables bound to each other is one of them, and the
oldest. -/
theorem Sound.oldest (hs : s.Sound) {i j : Address} (h : s.tree? (.ref i) = some (.var j)) :
    s.tree? (.ref j) = some (.var j) ∧ j ≤ i := by
  obtain ⟨hj, hle⟩ := Heap.unbound_of_resolve? hs.store.heap h
  exact ⟨Heap.resolve?_ref _ hj, hle⟩

end Session

namespace Workspace

variable {w : Workspace}

/-- The pairs in another order, some of them with their sides exchanged. -/
def Rearranges (ps qs : List (Cell × Cell)) : Prop :=
  ∃ rs, ps.Perm rs ∧ List.Forall₂ (fun r q => q = r ∨ q = r.swap) rs qs

/-- What does not depend on the sides holds of all pairs in one order if it does in the other. -/
theorem Rearranges.forall_iff {ps qs : List (Cell × Cell)} (h : Rearranges ps qs)
    {P : Cell × Cell → Prop} (hP : ∀ p, P p ↔ P p.swap) : (∀ p ∈ ps, P p) ↔ ∀ q ∈ qs, P q := by
  obtain ⟨rs, hperm, hswap⟩ := h
  have hrs : (∀ p ∈ ps, P p) ↔ ∀ r ∈ rs, P r := by simp only [hperm.mem_iff]
  rw [hrs]
  clear hrs hperm
  induction hswap with
  | nil => simp
  | @cons r q rs qs hq _ ih =>
    have hrq : P r ↔ P q := by
      rcases hq with rfl | rfl
      · exact Iff.rfl
      · exact hP r
    rw [List.forall_mem_cons, List.forall_mem_cons]
    exact and_congr hrq ih

/-- Unifying several pairs of terms that some substitution makes equal succeeds in every order and
with either side of each pair first, and gives the same trees to all terms, down to the variables in
them: of several variables bound to each other the oldest one is left. -/
theorem unifyAll_anyOrder (hw : w.Reachable) (hac : w.heap.Acyclic) {ps : List (Cell × Cell)}
    (hps : ∀ p ∈ ps, p.1 ∈ w.handles ∧ p.2 ∈ w.handles)
    (hθ : ∃ θ, w.session.UnifiesAll θ ps) :
    ∃ tree : Cell → Tree, ∀ qs, Rearranges ps qs →
      ∃ s, w.session.unifyAll? qs = some (.unified, s) ∧
        (∀ c ∈ w.handles, s.tree? c = some (tree c)) ∧
        ∀ i j, s.tree? (.ref i) = some (.var j) → s.tree? (.ref j) = some (.var j) ∧ j ≤ i := by
  obtain ⟨θ, hθ⟩ := hθ
  have hs := hw.sound.session
  let V := w.session.heap.valuation w.session.atoms θ
  have hV : w.session.heap.Valued w.session.atoms V := Heap.valued_valuation hs.store.heap hac
  have heq : ∀ p ∈ ps, V p.1 = V p.2 := by
    intro p hp
    obtain ⟨t, u, ht, hu, htu⟩ := hθ p hp
    show w.session.heap.valuation w.session.atoms θ p.1 = _
    rw [Heap.valuation_of_resolve? ht, htu]
    exact (Heap.valuation_of_resolve? hu).symm
  have hterm : ∀ p ∈ ps, w.session.heap.IsTerm w.session.atoms.size p.1 ∧
      w.session.heap.IsTerm w.session.atoms.size p.2 := fun p hp =>
    ⟨hw.sound.handles _ (hps p hp).1, hw.sound.handles _ (hps p hp).2⟩
  -- neither being terms nor having equal values depends on the order or on the sides
  have hsame := fun {qs} (hqs : Rearranges ps qs) (V : Cell → Tree) =>
    hqs.forall_iff (P := fun p => V p.1 = V p.2) fun p => eq_comm
  obtain ⟨s₀, -, h₀⟩ := Session.exists_unifyAll?_of_valued hs hterm hV heq
  have hV₀ := (h₀.valued V).2 ⟨hV, heq⟩
  refine ⟨fun c => (s₀.tree? c).getD (.atom ""), fun qs hqs => ?_⟩
  have hterm' := (hqs.forall_iff (P := fun p => w.session.heap.IsTerm w.session.atoms.size p.1 ∧
    w.session.heap.IsTerm w.session.atoms.size p.2) fun p => and_comm).1 hterm
  obtain ⟨s, hu, h⟩ := Session.exists_unifyAll?_of_valued hs hterm' hV ((hsame hqs V).1 heq)
  refine ⟨s, hu, fun c hc => ?_, fun i j => h.moves.sound.oldest⟩
  have hc := hw.sound.handles c hc
  obtain ⟨t, ht⟩ := Heap.exists_resolve? s₀.atoms h₀.moves.sound.store.heap
    (hV₀.acyclic (h₀.atoms ▸ h₀.moves.sound.store.heap)) (h₀.moves.isTerm hc)
  have e : s₀.tree? c = s.tree? c := h₀.tree?_eq h hV₀ (hsame hqs) hc
  have ht : s₀.tree? c = some t := ht
  show s.tree? c = some ((s₀.tree? c).getD (.atom ""))
  rw [← e, ht, Option.getD_some]

/-- Three variables are bound to each other by two pairs. In either order and with either side first
the oldest of them is left. -/
theorem unifyAll_anyOrder_vars : ∃ w, blank.run? [.request .var, .request .var, .request .var] =
    some w ∧ ∀ qs, Rearranges [(.ref 1, .ref 2), (.ref 2, .ref 0)] qs →
      ∃ s, w.session.unifyAll? qs = some (.unified, s) ∧
        s.tree? (.ref 1) = some (.var 0) ∧ s.tree? (.ref 2) = some (.var 0) := by
  obtain ⟨w, hw⟩ : ∃ w, blank.run? [.request .var, .request .var, .request .var] = some w :=
    ⟨_, rfl⟩
  have hreach := reachable_blank.run _ hw
  cases hw
  refine ⟨_, rfl, fun qs hqs => ?_⟩
  have hac : Heap.Acyclic ⟨#[.ref 0, .ref 1, .ref 2]⟩ := by
    intro i f args hv c hc
    obtain ⟨g, hg, -⟩ := Heap.isHead_of_view? hv hc
    have hlt : i < 3 := Arena.lt_size_of_get? hg
    interval_cases i <;> cases hg
  obtain ⟨tree, htree⟩ := @unifyAll_anyOrder _ hreach hac [(.ref 1, .ref 2), (.ref 2, .ref 0)]
    (by decide) ⟨fun _ => .var 0, by
      intro p hp
      simp only [List.mem_cons, List.not_mem_nil, or_false] at hp
      rcases hp with rfl | rfl
      · exact ⟨.var 1, .var 2, rfl, rfl, rfl⟩
      · exact ⟨.var 2, .var 0, rfl, rfl, rfl⟩⟩
  -- one order shows what the trees are
  obtain ⟨s₀, hu₀, h₀, -⟩ := htree _ ⟨_, .refl _, .cons (.inl rfl) (.cons (.inl rfl) .nil)⟩
  have e₀ : s₀.tree? (.ref 1) = some (.var 0) ∧ s₀.tree? (.ref 2) = some (.var 0) := by
    cases hu₀
    exact ⟨rfl, rfl⟩
  obtain ⟨s, hu, h, -⟩ := htree qs hqs
  refine ⟨s, hu, ?_, ?_⟩
  · rw [h _ (by decide), ← h₀ _ (by decide), e₀.1]
  · rw [h _ (by decide), ← h₀ _ (by decide), e₀.2]

end Workspace

end PrologTerms
