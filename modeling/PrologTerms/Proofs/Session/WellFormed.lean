import PrologTerms.Proofs.Heap.Equal
import PrologTerms.Proofs.Session.Printing
import PrologTerms.Proofs.Session.Sound
import PrologTerms.Proofs.Writing.Safety

/-!
# The heap in reachable states

What can be relied on in every state that a use of a session can lead to: chains of variables lead to
older slots, compound terms have their functor and their arguments in place, and every atom has a
name. Therefore looking at a term, comparing, unifying and writing terms never meets a cell that is
not well-formed.
-/

namespace PrologTerms

namespace Workspace

/-- The cell is in a slot of the heap, or was handed out at some time. -/
def Holds (w : Workspace) (c : Cell) : Prop :=
  c ∈ w.handles ∨ ∃ i, w.heap.get? i = some c

/-- What every part of the program may rely on when it looks at the heap. -/
structure Intact (w : Workspace) : Prop where
  /-- A variable is bound to an older one, or is its own address. -/
  older : ∀ i j : Nat, w.heap.get? i = some (.ref j) → j ≤ i
  /-- A compound term has its functor, with at least one argument, and a slot for each of them. -/
  functor : ∀ i : Nat, w.Holds (.str i) → ∃ f, w.heap.get? i = some (.con f) ∧ 1 ≤ f.arity ∧
    i + f.arity < w.heap.size
  /-- Every atom has a name. -/
  atom : ∀ f, w.Holds (.con f) → f.name < w.session.atoms.size
  /-- Variables can be followed to the end, which is no variable, or one that is its own address. -/
  deref : ∀ c ∈ w.handles, ∃ d, w.heap.deref? c = some d ∧
    ∀ i, d = .ref i → w.heap.get? i = some (.ref i)
  /-- The functor of a term can be asked for. -/
  functor? : ∀ c ∈ w.handles, ∃ f, w.heap.functor? c = some f
  /-- So can the arguments that a compound term has. -/
  arg? : ∀ c ∈ w.handles, ∀ i f n, w.heap.deref? c = some (.str i) →
    w.heap.functor? c = some (some f) → n < f.arity → ∃ d, w.heap.arg? c n = some d
  /-- On the way down from a term all parts have a form, and all names are known. -/
  part : ∀ c ∈ w.handles, ∀ d, w.heap.Part c d → ∃ v, w.heap.view? d = some v ∧
    ∀ f, v.head = .con f → ∃ name, w.session.atoms.name? f.name = some name
  /-- Unifying two terms, no step meets something that is no term. -/
  unify : ∀ a ∈ w.handles, ∀ b ∈ w.handles, ∀ n s s',
    Iteration.Steps Store.unifyStep n { w.store.openTransaction.2 with pending := [(a, b)] } s →
      Store.unifyStep s ≠ .done (.malformed, s')
  /-- Comparing two terms, no step meets something that is no term. -/
  equal : ∀ a ∈ w.handles, ∀ b ∈ w.handles, ∀ n ps,
    Iteration.Steps w.heap.compareStep n [(a, b)] ps → w.heap.compareStep ps ≠ .done none
  /-- Writing a term, no step meets something that is no term. -/
  write : ∀ c ∈ w.handles, ∀ given n s,
    Iteration.Steps w.session.writer.step n (Writer.start given c) s →
      w.session.writer.step s ≠ .done none

variable {w : Workspace}

theorem Sound.isTerm_of_holds (hw : w.Sound) {c : Cell} (hc : w.Holds c) :
    w.heap.IsTerm w.session.atoms.size c ∨ ∃ i f, w.heap.get? i = some (.con f) ∧ c = .con f ∧
      0 < f.arity := by
  rcases hc with hc | ⟨i, hi⟩
  · exact .inl (hw.handles c hc)
  · by_cases hh : w.heap.IsHead i
    · obtain ⟨f, hf, hpos⟩ := hh
      rw [hf, Option.some.injEq] at hi
      exact .inr ⟨i, f, hf, hi.symm, hpos⟩
    · exact .inl (hw.session.store.heap.term i c hi hh)

theorem Sound.isIntact (hw : w.Sound) : w.Intact where
  older := hw.session.store.heap.older
  functor i hi := by
    rcases hw.isTerm_of_holds hi with ⟨f, hf, hpos⟩ | ⟨_, _, _, e, _⟩
    · exact ⟨f, hf, hpos, (hw.session.store.heap.head i f hf hpos).2.1⟩
    · cases e
  atom f hf := by
    rcases hw.isTerm_of_holds hf with ht | ⟨i, g, hi, e, hpos⟩
    · exact ht.2
    · cases e
      exact (hw.session.store.heap.head i f hi hpos).1
  deref c hc := by
    obtain ⟨d, hd, -, hr⟩ := Heap.exists_deref? hw.session.store.heap (hw.handles c hc)
    exact ⟨d, hd, hr⟩
  functor? c hc := Heap.exists_functor? hw.session.store.heap (hw.handles c hc)
  arg? c hc i f n hd hf hn := by
    obtain ⟨d, hd, -⟩ := Heap.exists_arg? hw.session.store.heap (hw.handles c hc) hd hf hn
    exact ⟨d, hd⟩
  part c hc d hd := by
    have ht := hd.isTerm hw.session.store.heap (hw.handles c hc)
    obtain ⟨v, hv, -, hfits⟩ := Heap.exists_view? hw.session.store.heap ht
    refine ⟨v, hv, fun f hf => ?_⟩
    exact Arena.exists_get?_of_lt (View.Fits.name_lt hfits hw.session.store.heap hf)
  unify a ha b hb n s s' hsteps hdone := by
    have hs := hw.session.store.openTransaction.of_pending [(a, b)]
      (by simpa using ⟨hw.handles a ha, hw.handles b hb⟩)
    exact (Store.sound_done (Store.sound_steps hs hsteps).1 hdone).2.2.1 rfl
  equal a ha b hb n ps hsteps := by
    have hps := hsteps.preserves
      (P := fun ps => ∀ p ∈ ps, w.heap.IsTerm w.session.atoms.size p.1 ∧
        w.heap.IsTerm w.session.atoms.size p.2)
      (fun ps qs hp hstep => (Heap.isTerm_compareStep hw.session.store.heap hp).2 qs hstep)
      (by simpa using ⟨hw.handles a ha, hw.handles b hb⟩)
    exact (Heap.isTerm_compareStep hw.session.store.heap hps).1
  write c hc given n s hsteps := by
    have hs : w.session.writer.Sound := ⟨hw.session.atoms, hw.session.store.heap⟩
    have hall := Writer.acceptsAll_steps hs (hw.handles c hc) hsteps
    rcases Writer.step_spec hs hall with ⟨s', hmore, -⟩ | hdone
    · simp [hmore]
    · simp [hdone]

/-- In every state that some use of a session has led to, the heap is intact. -/
theorem Reachable.intact (hw : w.Reachable) : w.Intact := hw.sound.isIntact

/-- A variable is made, and then a list of it; a second variable is made in a transaction, bound to
the list, and made unbound again by a rollback. Its handle is still good. -/
theorem intact_after_rollback : ∃ w, blank.run? [.request .var, .request .nil,
    .request (.list [.ref 0] .nil), .begin, .request .var, .unify (.ref 4) (.str 1), .rollback] =
      some w ∧ .ref 4 ∈ w.handles ∧ w.heap.get? 4 = some (.ref 4) ∧ w.Intact := by
  obtain ⟨w, hw⟩ : ∃ w, blank.run? [.request .var, .request .nil,
      .request (.list [.ref 0] .nil), .begin, .request .var, .unify (.ref 4) (.str 1),
      .rollback] = some w := ⟨_, rfl⟩
  refine ⟨w, hw, ?_, ?_, Reachable.intact (reachable_blank.run _ hw)⟩
  · cases hw
    decide
  · cases hw
    decide

end Workspace

end PrologTerms
