import PrologTerms.Proofs.Heap.Growth
import PrologTerms.Proofs.Reading.Meaning

/-!
# The variables in a term

The variables that occur in a term are unbound slots of the heap, so that what is added to the heap later
does not occur in it.
-/

namespace PrologTerms.Heap

variable {h h' : Heap} {k : Nat} {c d : Cell} {i : Address}

/-- The unbound variable is a part of the term. -/
def Occurs (h : Heap) (i : Address) (c : Cell) : Prop :=
  ∃ d, h.Part c d ∧ h.view? d = some (.var i)

/-- The variables of a tree occur in the term. -/
theorem occurs_of_mem_vars {atoms : AtomTable} {n : Nat} {t : Tree}
    (ht : h.resolveWithin atoms n c = some t) (hi : i ∈ t.vars) : h.Occurs i c := by
  induction n generalizing c t with
  | zero => cases ht
  | succ n ih =>
    obtain ⟨-, v, -, hv⟩ := exists_view?_of_resolveWithin ht
    obtain ⟨ts, hts, rfl⟩ := (resolveWithin_eq_some_iff hv).1 ht
    cases v with
    | var j =>
      rw [List.mem_singleton.1 hi]
      exact ⟨c, .refl, hv⟩
    | compound j f args =>
      rw [View.plug, Tree.vars_compound] at hi
      obtain ⟨u, hu, hi⟩ := List.mem_flatMap.1 hi
      obtain ⟨d, hd, hdu⟩ := exists_of_mem_of_forall₂ hts hu
      obtain ⟨e, he, hview⟩ := ih hdu hi
      exact ⟨e, .trans (.arg .refl hv hd) he, hview⟩
    | _ => cases hi

theorem Occurs.get? (hw : h.WellFormed k) (hc : h.IsTerm k c) (hi : h.Occurs i c) :
    h.get? i = some (.ref i) := by
  obtain ⟨d, hd, hv⟩ := hi
  exact (view?_spec hw (hd.isTerm hw hc) hv).2

/-- A term gets no new parts. -/
theorem Grows.part (hg : h.Grows h') (hw : h.WellFormed k) (hc : h.IsTerm k c) (hd : h'.Part c d) :
    h.Part c d := by
  induction hd with
  | refl => exact .refl
  | arg _ hv he ih =>
    obtain ⟨v, hv', -⟩ := exists_view? hw (ih.isTerm hw hc)
    rw [hg.view? hv', Option.some.injEq] at hv
    exact .arg ih hv' (hv ▸ he)

/-- No new variable occurs in an old term. -/
theorem Grows.lt_size_of_occurs (hg : h.Grows h') (hw : h.WellFormed k) (hc : h.IsTerm k c)
    (hi : h'.Occurs i c) : i < h.size := by
  obtain ⟨d, hd, hv⟩ := hi
  have hpart := hg.part hw hc hd
  obtain ⟨v, hv', -⟩ := exists_view? hw (hpart.isTerm hw hc)
  rw [hg.view? hv', Option.some.injEq] at hv
  exact Arena.lt_size_of_get? (Occurs.get? hw hc ⟨d, hpart, hv ▸ hv'⟩)

end PrologTerms.Heap
