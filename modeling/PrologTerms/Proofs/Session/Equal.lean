import PrologTerms.Proofs.Session.MostGeneral
import PrologTerms.Proofs.Session.Symmetric
import PrologTerms.Proofs.Store.Agree

/-!
# Comparing and unifying in reachable sessions

Terms with finite trees can always be compared, and are equal if and only if their trees are. Unifying
them succeeds without anything to be undone later if and only if they are equal, and then nothing
changes at all. Terms without finite trees can be compared and unified as well, unless the work on them
goes on for ever.
-/

namespace PrologTerms

namespace Session

variable {s s' : Session} {a b : Cell}

/-- Unifying two terms leads to what the work on them leaves behind. -/
theorem exists_store_of_unify? (h : s.unify? a b = some (.unified, s')) :
    ∃ store, s.store.openTransaction.2.solve? a b = some (.unified, store) ∧
      s' = { s with store := store.commit s.store.openTransaction.1 } := by
  obtain ⟨attempt, hattempt, he⟩ := Option.map_eq_some_iff.1 h
  obtain ⟨t, ht, hte⟩ := Option.map_eq_some_iff.1 hattempt
  obtain ⟨⟨v, store⟩, hsolve, hv⟩ := Option.map_eq_some_iff.1 ht
  have hfailed : ∀ v' undone store', t = .failure v' undone store' → v' = .unified := by
    rintro v' undone store' rfl
    cases hte
    cases he
    rfl
  cases v with
  | unified =>
    cases hv
    cases hte
    cases he
    exact ⟨store, hsolve, rfl⟩
  | _ => exact absurd (hfailed _ _ _ hv.symm) (by simp)

theorem exists_solve?_of_unify? (h : s.unify? a b = some (.unified, s')) :
    ∃ store, s.store.openTransaction.2.solve? a b = some (.unified, store) ∧
      s'.store.trail = store.trail := by
  obtain ⟨store, hsolve, rfl⟩ := exists_store_of_unify? h
  exact ⟨store, hsolve, rfl⟩

end Session

namespace Workspace

variable {w : Workspace} {a b : Cell} {ta tb : Tree}

/-- Comparing is exact. Of terms with finite trees, any two can be compared, and the answer is whether
their trees are the same: with the same names and numbers of arguments, the same integers, the same
stand-ins, and the same variables. Therefore a term is equal to itself, it does not matter which of two
terms comes first, terms that are equal to the same term are equal, and a variable can be replaced by
what it leads to. -/
theorem equal_exact (hw : w.Reachable) (ha : a ∈ w.handles) (hb : b ∈ w.handles)
    (hta : w.heap.HasTree w.session.atoms a ta) (htb : w.heap.HasTree w.session.atoms b tb) :
    (∃ r, w.session.equal? a b = some r ∧ (r = true ↔ ta = tb)) ∧
      w.session.equal? a a = some true ∧
      w.session.equal? b a = w.session.equal? a b ∧
      (∀ c ∈ w.handles, ∀ tc, w.heap.HasTree w.session.atoms c tc →
        w.session.equal? a b = some true → w.session.equal? b c = some true →
          w.session.equal? a c = some true) ∧
      ∃ da db, w.heap.deref? a = some da ∧ w.heap.deref? b = some db ∧
        w.session.equal? da b = w.session.equal? a b ∧
        w.session.equal? a db = w.session.equal? a b := by
  have hs := hw.sound
  have hat := hs.session.atoms
  have hheap : w.heap.WellFormed w.session.atoms.size := hs.session.store.heap
  have hfa : w.heap.IsFinite w.session.atoms a := ⟨hs.handles a ha, ta, hta⟩
  have hfb : w.heap.IsFinite w.session.atoms b := ⟨hs.handles b hb, tb, htb⟩
  have hva := hta.valuation hheap hfa.isTerm
  have hvb := htb.valuation hheap hfb.isTerm
  refine ⟨?_, ?_, ?_, ?_, ?_⟩
  · obtain ⟨r, hr, hiff⟩ := Heap.exists_equal? hat hheap hfa hfb
    rw [hva, hvb] at hiff
    exact ⟨r, hr, hiff⟩
  · exact (Heap.equal?_eq_true_iff hat hheap hfa hfa).2 rfl
  · exact Heap.equal?_congr hat hheap hfb hfa hfa hfb eq_comm
  · intro c hc tc htc hab hbc
    have hfc : w.heap.IsFinite w.session.atoms c := ⟨hs.handles c hc, tc, htc⟩
    have h₁ := (Heap.equal?_eq_true_iff hat hheap hfa hfb).1 hab
    have h₂ := (Heap.equal?_eq_true_iff hat hheap hfb hfc).1 hbc
    exact (Heap.equal?_eq_true_iff hat hheap hfa hfc).2 (h₁.trans h₂)
  · obtain ⟨da, hda, hfda, hvda⟩ := hfa.deref hheap
    obtain ⟨db, hdb, hfdb, hvdb⟩ := hfb.deref hheap
    refine ⟨da, db, hda, hdb, ?_, ?_⟩
    · exact Heap.equal?_congr hat hheap hfda hfb hfa hfb (by rw [hvda])
    · exact Heap.equal?_congr hat hheap hfa hfdb hfa hfb (by rw [hvdb])

/-- Two compound terms with the same argument, which is a variable. The second of them is also the
value of a variable. -/
def twins : Workspace where
  session.store.heap := ⟨#[.ref 0, .con ⟨9, 1⟩, .ref 0, .con ⟨9, 1⟩, .ref 0, .str 3]⟩
  session.store.trail := ⟨#[5]⟩
  session.atoms := ⟨⟨#["[]", ".", ",", "{}", "-", ";", "|", ":-", "", "f"]⟩⟩
  handles := [.ref 5, .str 3, .str 1, .ref 0]
  born := ⟨#[.ref 0, .con ⟨9, 1⟩, .ref 0, .con ⟨9, 1⟩, .ref 0, .ref 5]⟩

theorem reachable_twins : twins.Reachable := by
  have hrun : blank.run? [.request .var, .request (.term "f" [.ref 0]),
      .request (.term "f" [.ref 0]), .request .var, .unify (.ref 5) (.str 3)] = some twins := by
    decide +kernel
  exact reachable_blank.run _ hrun

/-- A compound term is equal to its twin, and is not equal to its argument. -/
theorem equal_exact_twins : twins.session.equal? (.str 1) (.ref 5) = some true ∧
    twins.session.equal? (.str 1) (.ref 0) = some false := by
  constructor
  · obtain ⟨⟨r, hr, hiff⟩, -⟩ := equal_exact reachable_twins (a := .str 1) (b := .ref 5) (by decide)
      (by decide) ⟨2, rfl⟩ ⟨2, rfl⟩
    rw [hr, hiff.2 rfl]
  · obtain ⟨⟨r, hr, hiff⟩, -⟩ := equal_exact reachable_twins (a := .str 1) (b := .ref 0) (by decide)
      (by decide) ⟨2, rfl⟩ ⟨1, rfl⟩
    rw [hr, Bool.eq_false_iff.2 fun h => Tree.noConfusion (hiff.1 h)]

/-- Unifying agrees with comparing. Unifying two terms with finite trees succeeds without a longer
trail if and only if the terms are equal; and if they are, the whole session is as before. -/
theorem unify_unchanged_iff (hw : w.Reachable) (ha : a ∈ w.handles) (hb : b ∈ w.handles)
    (hta : w.heap.HasTree w.session.atoms a ta) (htb : w.heap.HasTree w.session.atoms b tb) :
    ((∃ s, w.session.unify? a b = some (.unified, s) ∧
        s.store.trail.depth ≤ w.store.trail.depth) ↔ w.session.equal? a b = some true) ∧
      (w.session.equal? a b = some true →
        w.session.unify? a b = some (.unified, w.session)) := by
  have hs := hw.sound
  have hopen : w.session.store.openTransaction.2.Sound w.session.atoms.size :=
    hs.session.store.openTransaction
  have hfa : w.heap.IsFinite w.session.atoms a := ⟨hs.handles a ha, ta, hta⟩
  have hfb : w.heap.IsFinite w.session.atoms b := ⟨hs.handles b hb, tb, htb⟩
  have hsame : w.session.equal? a b = some true →
      w.session.unify? a b = some (.unified, w.session) := by
    intro he
    have hsolve : w.session.store.openTransaction.2.solve? a b =
        some (.unified, w.session.store.openTransaction.2) :=
      Store.solve?_of_equal? hs.session.atoms hopen hfa hfb he
    rw [Session.unify?_of_solve? hsolve]
    rfl
  refine ⟨⟨?_, fun he => ⟨w.session, hsame he, Nat.le_refl _⟩⟩, hsame⟩
  rintro ⟨s, hu, hle⟩
  obtain ⟨store, hsolve, htrail⟩ := Session.exists_solve?_of_unify? hu
  rw [htrail] at hle
  exact Store.equal?_of_solve? (s := w.session.store.openTransaction.2) hs.session.atoms hopen rfl
    hfa hfb hsolve hle

/-- Unifying a compound term with its twin changes nothing. -/
theorem unify_unchanged_twins :
    twins.session.unify? (.str 1) (.ref 5) = some (.unified, twins.session) := by
  obtain ⟨-, hsame⟩ := unify_unchanged_iff reachable_twins (a := .str 1) (b := .ref 5) (by decide)
    (by decide) ⟨2, rfl⟩ ⟨2, rfl⟩
  exact hsame (by decide +kernel)

/-- Comparing two terms has no answer exactly if the comparison does not end. -/
theorem equal?_eq_none_iff (hw : w.Reachable) (ha : a ∈ w.handles) (hb : b ∈ w.handles) :
    w.session.equal? a b = none ↔
      ∀ n r, ¬ Iteration.EndsAfter w.heap.compareStep n [(a, b)] r :=
  Heap.equal?_eq_none_iff hw.sound.session.store.heap (hw.sound.handles a ha) (hw.sound.handles b hb)

/-- Unifying two terms has no answer exactly if the work on them does not end. -/
theorem unify?_eq_none_iff (hw : w.Reachable) (ha : a ∈ w.handles) (hb : b ∈ w.handles) :
    w.session.unify? a b = none ↔
      ∀ n r, ¬ Iteration.EndsAfter Store.unifyStep n (w.session.store.attempt a b) r := by
  have hs := hw.sound
  rw [Session.unify?, Option.map_eq_none_iff, Session.tryUnify?, Option.map_eq_none_iff,
    Store.tryUnify?, Option.map_eq_none_iff]
  exact Store.solve?_eq_none_iff hs.session.store.openTransaction (hs.handles a ha) (hs.handles b hb)

end Workspace

end PrologTerms
