import PrologTerms.Proofs.Session.Sound
import PrologTerms.Proofs.Store.MostGeneral
import Mathlib.Tactic.IntervalCases

/-!
# Unification in reachable sessions

In a session whose heap has no circles, two terms that some substitution makes equal are unified, the
heap stays without circles, and the bindings are no more special than the substitution: they change
no term in a way that it does not change it anyway.
-/

namespace PrologTerms

/-- The substitution makes the trees equal. -/
def Tree.Unifies (θ : Address → Tree) (t u : Tree) : Prop := t.subst θ = u.subst θ

namespace Session

variable {s : Session} {a b : Cell}

/-- If the work on two terms ends well, unifying them leads to what it leaves behind. -/
theorem unify?_of_solve? {store : Store}
    (h : s.store.openTransaction.2.solve? a b = some (.unified, store)) :
    s.unify? a b = some (.unified,
      { s with store := store.commit s.store.openTransaction.1 }) := by
  have htry : s.store.tryUnify? a b = some (.success s.store.openTransaction.1 store) := by
    simp only [Store.tryUnify?, h, Option.map_some]
  simp only [unify?, tryUnify?, htry, Option.map_some]
  rfl

/-- Terms that a substitution makes equal are unified, and no more than needed. -/
theorem unify?_of_unifies (hs : s.Sound) (hac : s.heap.Acyclic)
    (ha : s.heap.IsTerm s.atoms.size a) (hb : s.heap.IsTerm s.atoms.size b) {ta tb : Tree}
    (hta : s.tree? a = some ta) (htb : s.tree? b = some tb) {θ : Address → Tree}
    (hθ : Tree.Unifies θ ta tb) : ∃ s', s.unify? a b = some (.unified, s') ∧ s'.heap.Acyclic ∧
      (∃ t, s'.tree? a = some t ∧ s'.tree? b = some t) ∧
      ∀ θ, Tree.Unifies θ ta tb → ∀ c, s.heap.IsTerm s.atoms.size c →
        ∃ t t', s.tree? c = some t ∧ s'.tree? c = some t' ∧ t.subst θ = t'.subst θ := by
  have hw : s.heap.WellFormed s.atoms.size := hs.store.heap
  -- a unifier is a valuation that makes the pair equal
  have hsolves : ∀ θ, Tree.Unifies θ ta tb → Store.Solves
      { s.store.openTransaction.2 with pending := [(a, b)] } s.atoms
      (s.heap.valuation s.atoms θ) := by
    intro θ hθ
    refine ⟨Heap.valued_valuation hw hac, fun p hp => ?_⟩
    rw [List.mem_singleton.1 hp]
    show s.heap.valuation s.atoms θ a = s.heap.valuation s.atoms θ b
    rw [Heap.valuation_of_resolve? hta, Heap.valuation_of_resolve? htb]
    exact hθ
  obtain ⟨store, hsolve, hr⟩ :=
    Store.solve?_of_solves hs.atoms hs.store.openTransaction ha hb (hsolves θ hθ)
  have hw' : store.heap.WellFormed s.atoms.size := hr.sound.heap
  have hvalued : ∀ θ, Tree.Unifies θ ta tb →
      store.heap.Valued s.atoms (s.heap.valuation s.atoms θ) :=
    fun θ hθ => ((hr.solves _).2 (hsolves θ hθ)).1
  have hac' : store.heap.Acyclic := (hvalued θ hθ).acyclic hw'
  refine ⟨_, unify?_of_solve? hsolve, hac', ?_, fun θ hθ c hc => ?_⟩
  · -- the trees of the new heap are a valuation themselves
    obtain ⟨t, ht⟩ := Heap.exists_resolve? s.atoms hw' hac'
      (ha.mono hr.keeps (Nat.le_refl _))
    obtain ⟨u, hu⟩ := Heap.exists_resolve? s.atoms hw' hac'
      (hb.mono hr.keeps (Nat.le_refl _))
    have hself := (hr.solves (store.heap.valuation s.atoms .var)).1
      ⟨Heap.valued_valuation hw' hac', by simp⟩
    have htu := hself.2 (a, b) List.mem_cons_self
    simp only [Heap.valuation_of_resolve? ht, Heap.valuation_of_resolve? hu, Tree.subst_var] at htu
    exact ⟨t, ht, htu ▸ hu⟩
  · obtain ⟨t, ht⟩ := Heap.exists_resolve? s.atoms hw hac hc
    have hc' := hc.mono hr.keeps (Nat.le_refl _)
    obtain ⟨t', ht'⟩ := Heap.exists_resolve? s.atoms hw' hac' hc'
    have hnew := (hvalued θ hθ).eq_subst hw' (θ := θ)
      (fun i hi => Heap.valuation_var (hr.unbound i hi)) hc' ht'
    rw [Heap.valuation_of_resolve? ht] at hnew
    exact ⟨t, t', ht, ht', hnew⟩

end Session

namespace Workspace

variable {w : Workspace}

/-- Unification computes most general unifiers. On a heap without circles all terms have trees. If
some substitution makes the trees of two terms equal, then unifying them succeeds, leaves a heap
without circles in which both have the same tree, and every such substitution maps the new tree of
each term to the same tree as the old one. If unifying fails, there is no such substitution. -/
theorem unify_mostGeneral (hw : w.Reachable) (hac : w.heap.Acyclic) {a b : Cell}
    (ha : a ∈ w.handles) (hb : b ∈ w.handles) :
    ∃ ta tb, w.session.tree? a = some ta ∧ w.session.tree? b = some tb ∧
      ((∃ θ, Tree.Unifies θ ta tb) → ∃ s, w.session.unify? a b = some (.unified, s) ∧
        s.heap.Acyclic ∧ (∃ t, s.tree? a = some t ∧ s.tree? b = some t) ∧
        ∀ θ, Tree.Unifies θ ta tb → ∀ c ∈ w.handles, ∃ t t', w.session.tree? c = some t ∧
          s.tree? c = some t' ∧ t.subst θ = t'.subst θ) ∧
      ∀ v s, w.session.unify? a b = some (v, s) → v ≠ .unified → ¬ ∃ θ, Tree.Unifies θ ta tb := by
  have hs := hw.sound
  obtain ⟨ta, hta⟩ := Heap.exists_resolve? w.session.atoms hs.session.store.heap hac
    (hs.handles a ha)
  obtain ⟨tb, htb⟩ := Heap.exists_resolve? w.session.atoms hs.session.store.heap hac
    (hs.handles b hb)
  have hunify : (∃ θ, Tree.Unifies θ ta tb) → ∃ s, w.session.unify? a b = some (.unified, s) ∧
      s.heap.Acyclic ∧ (∃ t, s.tree? a = some t ∧ s.tree? b = some t) ∧
      ∀ θ, Tree.Unifies θ ta tb → ∀ c ∈ w.handles, ∃ t t', w.session.tree? c = some t ∧
        s.tree? c = some t' ∧ t.subst θ = t'.subst θ := by
    rintro ⟨θ, hθ⟩
    obtain ⟨s, h₁, h₂, h₃, h₄⟩ := Session.unify?_of_unifies hs.session hac (hs.handles a ha)
      (hs.handles b hb) hta htb hθ
    exact ⟨s, h₁, h₂, h₃, fun θ hθ c hc => h₄ θ hθ c (hs.handles c hc)⟩
  refine ⟨ta, tb, hta, htb, hunify, fun v s hu hv hex => ?_⟩
  obtain ⟨s', hu', -⟩ := hunify hex
  rw [hu, Option.some.injEq, Prod.mk.injEq] at hu'
  exact hv hu'.1

/-- A variable is unified with a list of another variable. -/
theorem unify_mostGeneral_list : ∃ (w : Workspace) (s : Session), blank.run? [.request .var,
      .request .nil, .request (.list [.ref 0] .nil), .request .var] = some w ∧
    w.session.unify? (.ref 4) (.str 1) = some (.unified, s) ∧ s.heap.Acyclic := by
  let old : Heap := ⟨#[.ref 0, .con .dot, .ref 0, .nil, .ref 4]⟩
  let w : Workspace :=
    ⟨{ store := ⟨old, {}, [], 0⟩ }, [.ref 4, .str 1, .nil, .ref 0], [], old⟩
  have hrun : blank.run? [.request .var, .request .nil, .request (.list [.ref 0] .nil),
      .request .var] = some w := by decide +kernel
  have hac : w.heap.Acyclic := by
    intro i f args hv c hc d hd
    obtain ⟨g, hg, hpos⟩ := Heap.isHead_of_view? hv hc
    have hi : i = 1 := by
      have hlt : i < 5 := Arena.lt_size_of_get? hg
      interval_cases i <;> cases hg
      · rfl
      · exact absurd hpos (by decide)
    subst hi
    have hargs : args = [.ref 0, .nil] := by
      have e : w.heap.view? (.str 1) = some (.compound 1 .dot [.ref 0, .nil]) := by decide +kernel
      rw [hv, Option.some.injEq, View.compound.injEq] at e
      exact e.2.2
    subst hargs
    have hleaf : ∀ c ∈ [Cell.ref 0, .nil], ∃ v, w.heap.view? c = some v ∧ v.args = [] ∧
        w.heap.deref? c ≠ some (.str 1) := by
      intro c hc
      simp only [List.mem_cons, List.not_mem_nil, or_false] at hc
      rcases hc with rfl | rfl
      · exact ⟨.var 0, by decide +kernel, rfl, by decide +kernel⟩
      · exact ⟨.atom (.atom Atom.nil), by decide +kernel, rfl, by decide +kernel⟩
    obtain ⟨v, hv, hargs, hne⟩ := hleaf c hc
    rw [hd.eq_of_args hv hargs]
    exact hne
  have hw : w.Reachable := reachable_blank.run _ hrun
  obtain ⟨ta, tb, hta, htb, hmg, -⟩ := unify_mostGeneral hw hac (a := .ref 4) (b := .str 1)
    (by decide) (by decide)
  have ea : ta = .var 4 := Option.some.inj (hta.symm.trans rfl)
  have eb : tb = .compound "." [.var 0, .atom "[]"] := Option.some.inj (htb.symm.trans rfl)
  have hθ : Tree.Unifies (fun i => if i = 4 then tb else .var i) ta tb := by
    rw [ea, eb]
    rfl
  obtain ⟨s, hs, hacs, -⟩ := hmg ⟨_, hθ⟩
  exact ⟨w, s, hrun, hs, hacs⟩

end Workspace

end PrologTerms
