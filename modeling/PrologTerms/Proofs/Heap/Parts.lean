import PrologTerms.Proofs.Heap.Resolve
import PrologTerms.Proofs.Writing.Term

/-!
# The parts of trees on a well-formed heap

On a well-formed heap compound terms have arguments and integers fit into 64 bits, so that the trees of
terms can be written, and also read if nothing in them stands in for something else.
-/

namespace PrologTerms

namespace Heap

variable {h : Heap} {atoms : AtomTable} {k n : Nat} {c : Cell} {t : Tree} {P : Tree → Prop}

/-- What holds of every form that fits on the heap, holds of all parts of the trees on it. -/
theorem everywhere_of_resolveWithin (hw : h.WellFormed k) (hc : h.IsTerm k c)
    (hP : ∀ (v : View) (ts : List Tree), v.Fits h k → v.args.length = ts.length →
      P (v.plug atoms .var ts))
    (ht : h.resolveWithin atoms n c = some t) : t.Everywhere P := by
  induction n generalizing c t with
  | zero => cases ht
  | succ n ih =>
    obtain ⟨-, v, -, hv⟩ := exists_view?_of_resolveWithin ht
    have hfits := (view?_spec hw hc hv).2
    obtain ⟨ts, hts, rfl⟩ := (resolveWithin_eq_some_iff hv).1 ht
    have hp := hP v ts hfits hts.length_eq
    cases v with
    | compound i f args =>
      refine Tree.everywhere_compound.2 ⟨hp, fun u hu => ?_⟩
      obtain ⟨d, hd, hu'⟩ := exists_of_mem_of_forall₂ hts hu
      exact ih (hfits.isTerm_args d hd) hu'
    | _ => exact hp

/-- The compound terms in the tree of a term have arguments. -/
theorem proper_of_resolveWithin (hw : h.WellFormed k) (hc : h.IsTerm k c)
    (ht : h.resolveWithin atoms n c = some t) : t.Proper := by
  refine everywhere_of_resolveWithin hw hc (fun v ts hv hlen => ?_) ht
  cases v with
  | compound i f args =>
    obtain ⟨-, hpos, hargs, -⟩ := hv
    have hlen : args.length = ts.length := hlen
    show ts ≠ []
    rintro rfl
    rw [List.length_nil] at hlen
    omega
  | _ => trivial

/-- The tree of a term can be written and read, if nothing in it stands in for something else. -/
theorem writable_of_resolveWithin (hw : h.WellFormed k) (hc : h.IsTerm k c)
    (ht : h.resolveWithin atoms n c = some t) (hp : t.IsPlain) : t.Writable := by
  have hparts : t.Everywhere fun u => Tree.plainPart u = true → Tree.properPart u →
      Tree.writablePart u := by
    refine everywhere_of_resolveWithin hw hc (fun v ts hv _ => ?_) ht
    cases v with
    | var i => exact fun _ _ => trivial
    | compound i f args => exact fun _ hne => hne
    | atom f => exact fun _ _ => trivial
    | int n => exact fun _ _ => hv
    | big n => exact fun hplain => by cases (hplain : false = true)
    | global n => exact fun hplain => by cases (hplain : false = true)
  exact (proper_of_resolveWithin hw hc ht).mp (hp.mp hparts)

end Heap

end PrologTerms
