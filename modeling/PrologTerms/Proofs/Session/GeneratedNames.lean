import PrologTerms.Proofs.Heap.Occurs
import PrologTerms.Proofs.Session.Workspace
import PrologTerms.Proofs.Writing.Crowding
import PrologTerms.Proofs.Writing.Texts

/-!
# When generated names are source names

Terms of a session are written one after the other, and a variable without a source name is given a name
that is generated. This name is different from all source names, also from those of variables that are
not written, unless the variables crowd the names after an address.
-/

namespace PrologTerms

namespace Workspace

variable {w : Workspace} {c : Cell} {t : Tree} {i : Address}

/-- The term was handed out, or is got from one that was by asking for arguments. -/
def Knows (w : Workspace) (c : Cell) : Prop := ∃ d ∈ w.handles, w.heap.Part d c

/-- The unbound variable is the value of a known term. -/
def KnowsVar (w : Workspace) (i : Address) : Prop := ∃ c, w.Knows c ∧ w.heap.view? c = some (.var i)

/-- Whatever known terms are written, one after the other, the name that is given to a variable without a
source name is none of the source names. -/
def GeneratesNewNames (w : Workspace) : Prop :=
  ∀ cs ts, (∀ c ∈ cs, w.Knows c) → List.Forall₂ (fun c t => w.session.tree? c = some t) cs ts →
    ∀ i name, w.session.names.lookup i = none →
      (Tree.namesAfter w.session.ops w.session.names [] ts).lookup i = some name →
        name ∉ w.session.names.map Prod.snd

theorem knowsVar_of_mem_vars (hc : w.Knows c) (ht : w.session.tree? c = some t) (hi : i ∈ t.vars) :
    w.KnowsVar i := by
  obtain ⟨d, hd, hdc⟩ := hc
  obtain ⟨e, he, hview⟩ := Heap.occurs_of_mem_vars ht hi
  exact ⟨e, ⟨d, hd, hdc.trans he⟩, hview⟩

/-- Known variables can be written on their own, in any order. -/
theorem exists_written {is : List Address} (h : ∀ i ∈ is, w.KnowsVar i) : ∃ cs, (∀ c ∈ cs, w.Knows c) ∧
    List.Forall₂ (fun c t => w.session.tree? c = some t) cs (is.map Tree.var) := by
  induction is with
  | nil => exact ⟨[], by simp, .nil⟩
  | cons i is ih =>
    obtain ⟨c, hc, hview⟩ := h i List.mem_cons_self
    obtain ⟨cs, hcs, htrees⟩ := ih fun j hj => h j (List.mem_cons_of_mem i hj)
    refine ⟨c :: cs, List.forall_mem_cons.2 ⟨hc, hcs⟩, .cons ?_ htrees⟩
    exact (Heap.resolveWithin_eq_some_iff hview).2 ⟨[], .nil, rfl⟩

/-- No generated name is a source name, whatever terms are written, if and only if the variables that a
user knows of crowd the names after no address of a variable without a source name. -/
theorem generatesNewNames_iff (w : Workspace) : w.GeneratesNewNames ↔
    ∀ i, w.KnowsVar i → w.session.names.lookup i = none →
      ¬ w.session.names.Crowded w.KnowsVar i := by
  constructor
  · intro h i hi hnone hcrowded
    obtain ⟨is, name, his, hlookup, hname⟩ := (Naming.crowded_iff hi hnone).1 hcrowded
    obtain ⟨cs, hcs, htrees⟩ := exists_written his
    refine h cs _ hcs htrees i name hnone ?_ hname
    have hvars : (is.map Tree.var).flatMap Tree.vars = is := by
      rw [List.flatMap_map]
      exact List.flatMap_singleton' is
    rw [Tree.namesAfter_eq, hvars]
    exact hlookup
  · intro h cs ts hcs htrees i name hnone hlookup hname
    rw [Tree.namesAfter_eq] at hlookup
    have hvars : ∀ j ∈ ts.flatMap Tree.vars, w.KnowsVar j := by
      intro j hj
      obtain ⟨t, ht, hj⟩ := List.mem_flatMap.1 hj
      obtain ⟨c, hc, htree⟩ := exists_of_mem_of_forall₂ htrees ht
      exact knowsVar_of_mem_vars (hcs c hc) htree hj
    have hi : i ∈ ts.flatMap Tree.vars :=
      (Naming.mem_of_mem_addAll (Naming.mem_of_lookup hlookup)).resolve_left List.not_mem_nil
    exact h i (hvars i hi) hnone
      ((Naming.crowded_iff (hvars i hi) hnone).2 ⟨_, name, hvars, hlookup, hname⟩)

/-- No generated name is a source name, if no two variables have the same source name. -/
theorem generatesNewNames_of_nodup (h : (w.session.names.map Prod.snd).Nodup) : w.GeneratesNewNames := by
  intro cs ts hcs htrees i name hnone hlookup hname
  rw [Tree.namesAfter_eq] at hlookup
  obtain ⟨q, k, n, js, hjs, -⟩ := ((Naming.probed_nil _).addAll _).crowds hnone
    (Naming.mem_of_lookup hlookup) hname
  exact hjs.not_nodup h

/-- Two clauses have a variable `_G5` each, and a third one has a variable `_G5__`. If the variable with the
address 5 is written behind the former two, then it is called `_G5__`, too. -/
theorem exists_source_name_generated : ∃ w, blank.run? [.request (.parse "_G5."), .request (.parse "_G5."),
      .request (.parse "_G5__."), .request .var, .request .var, .request .var,
      .request (.term "f" [.ref 0, .ref 1, .ref 5])] = some w ∧ w.Reachable ∧
    w.session.names.lookup 5 = none ∧ w.session.names.lookup 2 = some "_G5__" ∧
    w.session.text? (.str 6) = some "f(_G5, _G5_, _G5__)" ∧ ¬ w.GeneratesNewNames := by
  let heap : Heap := ⟨#[.ref 0, .ref 1, .ref 2, .ref 3, .ref 4, .ref 5, .con ⟨9, 3⟩, .ref 0, .ref 1, .ref 5]⟩
  let atoms : AtomTable := ⟨⟨(Atom.pinned ++ ["f"]).toArray⟩⟩
  let names : SourceNames := [(2, "_G5__"), (1, "_G5"), (0, "_G5")]
  let w : Workspace := ⟨{ store := ⟨heap, {}, [], 0⟩, atoms, names },
    [.str 6, .ref 5, .ref 4, .ref 3, .ref 2, .ref 1, .ref 0], [], heap⟩
  have hrun : blank.run? [.request (.parse "_G5."), .request (.parse "_G5."), .request (.parse "_G5__."),
      .request .var, .request .var, .request .var, .request (.term "f" [.ref 0, .ref 1, .ref 5])] =
    some w := by decide +kernel
  have htree : w.session.tree? (.str 6) = some (.compound "f" [.var 0, .var 1, .var 5]) := rfl
  have htext : w.session.text? (.str 6) = some "f(_G5, _G5_, _G5__)" := by
    rw [Session.text?, htree]
    decide +kernel
  refine ⟨w, hrun, reachable_blank.run _ hrun, rfl, rfl, htext, fun h => ?_⟩
  have hknown : ∀ c ∈ [Cell.str 6], w.Knows c := by
    intro c hc
    rw [List.mem_singleton.1 hc]
    exact ⟨.str 6, List.mem_cons_self, .refl⟩
  have hname : (Tree.namesAfter w.session.ops w.session.names []
      [.compound "f" [.var 0, .var 1, .var 5]]).lookup 5 = some "_G5__" := by decide +kernel
  exact h _ _ hknown (.cons htree .nil) 5 "_G5__" rfl hname List.mem_cons_self

end Workspace

end PrologTerms
