import PrologTerms.Proofs.Session.Equal
import PrologTerms.Proofs.Store.Joined
import PrologTerms.Proofs.Writing.Writer

/-!
# Printing terms that are equal

What is printed depends on the tree of a term only. Terms that are equal, and terms that have been
unified, are printed alike, whether they are the same compound term, copies of it, or variables that lead
to one of these.
-/

namespace PrologTerms

namespace Session

/-- What writes the terms of the session. -/
def writer (s : Session) : Writer := ⟨s.heap, s.atoms, s.ops, s.names⟩

/-- The terms are printed alike. -/
structure PrintsAlike (s : Session) (a b : Cell) : Prop where
  /-- They have one text, which is also written straight from the heap. -/
  text : ∃ text, s.text? a = some text ∧ s.text? b = some text ∧
    ∃ after, s.writer.Prints [] a text after ∧ s.writer.Prints [] b text after
  /-- They have one text as clauses. -/
  clauseText : ∃ text, s.clauseText? a = some text ∧ s.clauseText? b = some text
  /-- Whatever names variables have been given before, writing them leads to one text, and gives the same
  names to variables. -/
  prints : ∀ given, ∃ text after, s.writer.Prints given a text after ∧ s.writer.Prints given b text after

variable {s s' : Session} {a b : Cell} {t u : Tree}

/-- Terms with the same tree are printed alike. -/
theorem printsAlike (hat : s.atoms.WellFormed) (hw : s.heap.WellFormed s.atoms.size)
    (ha : s.heap.IsTerm s.atoms.size a) (hb : s.heap.IsTerm s.atoms.size b)
    (hta : s.heap.HasTree s.atoms a t) (htb : s.heap.HasTree s.atoms b t) : s.PrintsAlike a b := by
  have hs : s.writer.Sound := ⟨hat, hw⟩
  have hpa := Writer.HasTree.prints hs ⟨ha, hta⟩
  have hpb := Writer.HasTree.prints hs ⟨hb, htb⟩
  have hra : s.tree? a = some t := (Heap.hasTree_iff hw ha).1 hta
  have hrb : s.tree? b = some t := (Heap.hasTree_iff hw hb).1 htb
  refine ⟨⟨t.text s.ops s.names, ?_, ?_, _, hpa [], hpb []⟩, ⟨t.clauseText s.ops s.names, ?_, ?_⟩,
    fun given => ⟨_, _, hpa given, hpb given⟩⟩
  · rw [text?, hra, Option.map_some]
  · rw [text?, hrb, Option.map_some]
  · rw [clauseText?, hra, Option.map_some]
  · rw [clauseText?, hrb, Option.map_some]

/-- Terms that have been unified have the same tree, if they have trees. -/
theorem tree_eq_of_unify? (hs : s.Sound) (ha : s.heap.IsTerm s.atoms.size a)
    (hb : s.heap.IsTerm s.atoms.size b) (h : s.unify? a b = some (.unified, s'))
    (hta : s'.heap.HasTree s'.atoms a t) (htb : s'.heap.HasTree s'.atoms b u) : t = u := by
  obtain ⟨store, hsolve, rfl⟩ := exists_store_of_unify? h
  exact (Store.alike_of_solve? hs.store.openTransaction ha hb hsolve).tree_eq hta htb

end Session

namespace Workspace

variable {w : Workspace} {a b : Cell}

/-- Printing depends on the trees of terms only. With any operators, two terms with finite trees that are
equal are printed alike, however they are laid out on the heap; and so are two terms that have been
unified, if they have finite trees then. -/
theorem prints_alike (hw : w.Reachable) (ha : a ∈ w.handles) (hb : b ∈ w.handles) (ops : OpTable) :
    (∀ ta tb, w.heap.HasTree w.session.atoms a ta → w.heap.HasTree w.session.atoms b tb →
      w.session.equal? a b = some true → Session.PrintsAlike { w.session with ops } a b) ∧
    ∀ s ta tb, w.session.unify? a b = some (.unified, s) → s.heap.HasTree s.atoms a ta →
      s.heap.HasTree s.atoms b tb → Session.PrintsAlike { s with ops } a b := by
  have hs := hw.sound
  have hat := hs.session.atoms
  have hheap : w.heap.WellFormed w.session.atoms.size := hs.session.store.heap
  have hterma := hs.handles a ha
  have htermb := hs.handles b hb
  constructor
  · intro ta tb hta htb he
    have htree := (Heap.equal?_eq_true_iff hat hheap ⟨hterma, ta, hta⟩ ⟨htermb, tb, htb⟩).1 he
    rw [hta.valuation hheap hterma, htb.valuation hheap htermb] at htree
    exact Session.printsAlike hat hheap hterma htermb hta (htree ▸ htb)
  · intro s ta tb hu hta htb
    have hafter : ({ w with session := s } : Workspace).Reachable := by
      refine hw.step (.unify a b) ?_
      rw [perform?, if_pos ⟨ha, hb⟩, hu, Option.map_some]
    have hs' := hafter.sound
    have htree := Session.tree_eq_of_unify? hs.session hterma htermb hu hta htb
    exact Session.printsAlike hs'.session.atoms hs'.session.store.heap (hs'.handles a ha)
      (hs'.handles b hb) hta (htree ▸ htb)

/-- A compound term and a variable that leads to its twin have one text, and before that, the variable is
unified with the twin. -/
theorem prints_alike_twins : twins.session.text? (.ref 5) = some "f(_G0)" ∧
    ∃ w : Workspace, w.session.unify? (.ref 5) (.str 3) = some (.unified, twins.session) ∧
      twins.session.PrintsAlike (.ref 5) (.str 3) := by
  let apart : Workspace := { twins with
    session.store.heap := twins.born
    session.store.trail := {} }
  have hapart : apart.Reachable := by
    have hrun : blank.run? [.request .var, .request (.term "f" [.ref 0]),
        .request (.term "f" [.ref 0]), .request .var] = some apart := by decide +kernel
    exact reachable_blank.run _ hrun
  have hu : apart.session.unify? (.ref 5) (.str 3) = some (.unified, twins.session) := by
    decide +kernel
  have halike : twins.session.PrintsAlike (.str 1) (.ref 5) :=
    (prints_alike reachable_twins (by decide) (by decide) twins.session.ops).1 _ _ ⟨2, rfl⟩ ⟨2, rfl⟩
      (by decide +kernel)
  refine ⟨?_, apart, hu, (prints_alike hapart (by decide) (by decide) twins.session.ops).2 _ _ _ hu
    ⟨2, rfl⟩ ⟨2, rfl⟩⟩
  obtain ⟨text, ha, hb, -⟩ := halike.text
  have htext : twins.session.text? (.str 1) = some "f(_G0)" := by decide +kernel
  rw [hb, ← ha, htext]

end Workspace

end PrologTerms
