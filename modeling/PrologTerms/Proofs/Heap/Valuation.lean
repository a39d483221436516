import PrologTerms.Proofs.Atom
import PrologTerms.Proofs.Heap.Resolve

/-!
# Valuations

A valuation gives each term of a heap a tree such that bound variables have the trees of their values,
and compound terms are made up of their arguments. A heap that has a valuation has no circles; one
without circles has a valuation for all choices of trees for its unbound variables, and no others.
-/

namespace PrologTerms

attribute [ext] Functor

namespace View

variable {h : Heap} {atoms : AtomTable} {va vb : View}

/-- Forms without variables that stand for one tree have one symbol, and arguments with the same
trees. -/
theorem plug_inj (hat : atoms.WellFormed) (hw : h.WellFormed atoms.size)
    (ha : va.Fits h atoms.size) (hb : vb.Fits h atoms.size) (hva : va.isVar = false)
    (hvb : vb.isVar = false) {σ : Address → Tree} {V : Cell → Tree}
    (e : va.plug atoms σ (va.args.map V) = vb.plug atoms σ (vb.args.map V)) :
    va.head = vb.head ∧ va.args.map V = vb.args.map V := by
  have hname : ∀ {f g : Functor}, va.head = .con f → vb.head = .con g →
      atoms.name f.name = atoms.name g.name → f.name = g.name := fun hf hg e =>
    hat.name_injective (Fits.name_lt ha hw hf) (Fits.name_lt hb hw hg) e
  cases va with
  | var i => cases hva
  | compound i f as =>
    cases vb with
    | compound j g bs =>
      obtain ⟨e₁, e₂⟩ := Tree.compound.inj e
      have hn := hname rfl rfl e₁
      have hl : f.arity = g.arity := by
        rw [← ha.2.2.1, ← hb.2.2.1, ← List.length_map V, ← @List.length_map _ _ bs V]
        exact congrArg _ e₂
      obtain rfl : f = g := Functor.ext hn hl
      exact ⟨rfl, e₂⟩
    | var j => cases hvb
    | _ => cases e
  | atom f =>
    cases vb with
    | atom g =>
      have hn := hname rfl rfl (Tree.atom.inj e)
      have hl : f.arity = g.arity := ha.1.trans hb.1.symm
      obtain rfl : f = g := Functor.ext hn hl
      exact ⟨rfl, rfl⟩
    | var j => cases hvb
    | _ => cases e
  | int n =>
    cases vb with
    | int m => cases e; exact ⟨rfl, rfl⟩
    | var j => cases hvb
    | _ => cases e
  | big n =>
    cases vb with
    | big m => cases e; exact ⟨rfl, rfl⟩
    | var j => cases hvb
    | _ => cases e
  | global n =>
    cases vb with
    | global m => cases e; exact ⟨rfl, rfl⟩
    | var j => cases hvb
    | _ => cases e

end View

namespace Heap

/-- The trees that `V` gives to terms are in accord with the heap. -/
structure Valued (h : Heap) (atoms : AtomTable) (V : Cell → Tree) : Prop where
  /-- A variable has the tree of the cell that it is bound to. -/
  slot : ∀ i c, h.get? i = some c → ¬ h.IsHead i → V (.ref i) = V c
  /-- A compound term is made up of its arguments. -/
  str : ∀ i f, h.get? i = some (.con f) → 0 < f.arity → V (.str i) =
    .compound (atoms.name f.name) ((List.range f.arity).map fun k => V (.ref (i + 1 + k)))
  /-- An atom is itself. -/
  con : ∀ f : Functor, f.arity = 0 → V (.con f) = .atom (atoms.name f.name)
  /-- An integer is itself. -/
  int : ∀ n, V (.int n) = .int n
  /-- So is a stand-in for an integer. -/
  big : ∀ n, V (.big n) = .big n
  /-- So is a stand-in for a term. -/
  global : ∀ n, V (.global n) = .global n

variable {h h' : Heap} {atoms : AtomTable} {V : Cell → Tree}

/-- What is the same for a variable and the cell that it is bound to, is the same for a variable and the
cell that it leads to. -/
theorem eq_of_derefWithin {α : Type} {V : Cell → α}
    (hV : ∀ i c, h.get? i = some c → ¬ h.IsHead i → V (.ref i) = V c) {k : Nat}
    (hw : h.WellFormed k) {n : Nat} {c d : Cell} (hc : h.IsTerm k c)
    (hd : h.derefWithin n c = some d) : V c = V d := by
  induction n generalizing c with
  | zero => cases hd
  | succ n ih =>
    cases c with
    | ref i =>
      simp only [Heap.derefWithin] at hd
      cases hg : h.get? i with
      | none => rw [hg] at hd; cases hd
      | some c =>
        simp only [hg] at hd
        split at hd
        · next e =>
          cases hd
          rw [e]
        · rw [hV i c hg hc.2]
          exact ih (hw.term i c hg hc.2) hd
    | _ => cases hd; rfl

theorem Valued.derefWithin (hV : h.Valued atoms V) (hw : h.WellFormed atoms.size) {n : Nat}
    {c d : Cell} (hc : h.IsTerm atoms.size c) (hd : h.derefWithin n c = some d) : V c = V d :=
  eq_of_derefWithin hV.slot hw hc hd

/-- The arguments of a compound term have the trees of their slots. -/
theorem map_args (hw : h.WellFormed atoms.size)
    (hV : ∀ i c, h.get? i = some c → ¬ h.IsHead i → V (.ref i) = V c) {i : Nat} {f : Functor}
    {args : List Cell} (hf : (View.compound i f args).Fits h atoms.size) :
    (List.range f.arity).map (fun k => V (.ref (i + 1 + k))) = args.map V := by
  obtain ⟨hg, hpos, hlen, hat, -⟩ := hf
  apply List.ext_getElem?
  intro k
  rw [List.getElem?_map, List.getElem?_map]
  by_cases hk : k < f.arity
  · have hlt : k < args.length := hlen ▸ hk
    have hgk := hat k hk
    rw [List.getElem?_eq_getElem hlt] at hgk
    have hno := (hw.head i f hg hpos).2.2 (i + 1 + k) (by omega) (by omega)
    rw [List.getElem?_range hk, List.getElem?_eq_getElem hlt, Option.map_some, Option.map_some,
      hV _ _ hgk.symm hno]
  · rw [List.getElem?_eq_none (by simpa using Nat.le_of_not_lt hk),
      List.getElem?_eq_none (by omega)]
    rfl

/-- The tree of a term is made up of its form and the trees of its arguments. -/
theorem Valued.view (hV : h.Valued atoms V) (hw : h.WellFormed atoms.size) {c : Cell} {v : View}
    (hc : h.IsTerm atoms.size c) (hv : h.view? c = some v) :
    V c = v.plug atoms (fun i => V (.ref i)) (v.args.map V) := by
  obtain ⟨hd, hf⟩ := view?_spec hw hc hv
  rw [hV.derefWithin hw hc hd]
  cases v with
  | var i => rfl
  | compound i f args =>
    rw [View.cell, hV.str i f hf.1 hf.2.1, map_args hw hV.slot hf]
    rfl
  | atom f => exact hV.con f hf.1
  | int n => exact hV.int n
  | big n => exact hV.big n
  | global n => exact hV.global n

/-- Binding a variable rules out the valuations in which it does not have the tree of its value. -/
theorem valued_set {i : Nat} {c : Cell} (hi : h.get? i = some (.ref i))
    (hc : h.IsTerm atoms.size c) :
    Valued (h.set i c) atoms V ↔ h.Valued atoms V ∧ V (.ref i) = V c := by
  have hlt := Arena.lt_size_of_get? hi
  have hh : ¬ h.IsHead i := by
    rintro ⟨f, hf, -⟩
    rw [hi] at hf
    cases hf
  have hk := keeps_set hh hc
  have hset : Arena.get? (h.set i c) i = some c := by rw [Arena.get?_set, if_pos ⟨rfl, hlt⟩]
  have hother : ∀ j : Nat, j ≠ i → Arena.get? (h.set i c) j = h.get? j := by
    intro j hj
    rw [Arena.get?_set, if_neg fun e => hj e.1.symm]
  have hhead : ∀ j : Nat, IsHead (h.set i c) j ↔ h.IsHead j := by
    intro j
    by_cases hj : j < h.size
    · exact hk.isHead_iff hj
    · constructor
      · intro hh'
        exact absurd (by simpa using hh'.lt_size) hj
      · intro hh'
        exact absurd hh'.lt_size hj
  have hcon : ∀ (j : Nat) (f : Functor), 0 < f.arity →
      (Arena.get? (h.set i c) j = some (.con f) ↔ h.get? j = some (.con f)) := by
    intro j f hf
    by_cases hj : j = i
    · subst hj
      constructor
      · intro e
        exact absurd ⟨f, e, hf⟩ fun hh' => hh ((hhead j).1 hh')
      · intro e
        exact absurd ⟨f, e, hf⟩ hh
    · rw [hother j hj]
  constructor
  · intro hV
    refine ⟨⟨fun j d hj hjh => ?_, fun j f hj hf => hV.str j f ((hcon j f hf).2 hj) hf, hV.con,
      hV.int, hV.big, hV.global⟩, hV.slot i c hset fun hh' => hh ((hhead i).1 hh')⟩
    by_cases e : j = i
    · subst e
      rw [hi, Option.some.injEq] at hj
      rw [hj]
    · exact hV.slot j d ((hother j e).trans hj) fun hh' => hjh ((hhead j).1 hh')
  · rintro ⟨hV, hVi⟩
    refine ⟨fun j d hj hjh => ?_, fun j f hj hf => hV.str j f ((hcon j f hf).1 hj) hf, hV.con,
      hV.int, hV.big, hV.global⟩
    by_cases e : j = i
    · subst e
      rw [hset, Option.some.injEq] at hj
      exact hj ▸ hVi
    · exact hV.slot j d ((hother j e).symm.trans hj) fun hh' => hjh ((hhead j).2 hh')

/-! ## Valuations and circles -/

theorem Valued.size_part_le (hV : h.Valued atoms V) (hw : h.WellFormed atoms.size) {c d : Cell}
    (hc : h.IsTerm atoms.size c) (hd : h.Part c d) : (V d).size ≤ (V c).size := by
  induction hd with
  | refl => exact Nat.le_refl _
  | @arg d e v hd hv he ih =>
    have hmem : V e ∈ v.args.map V := List.mem_map_of_mem he
    have hlt : (V e).size < (V d).size := by
      rw [hV.view hw (hd.isTerm hw hc) hv]
      cases v with
      | compound i f args => exact Tree.size_lt_of_mem hmem
      | _ => cases he
    omega

/-- A heap with a valuation has no circles: a term is larger than its arguments. -/
theorem Valued.acyclic (hV : h.Valued atoms V) (hw : h.WellFormed atoms.size) : h.Acyclic := by
  intro i f args hv c hc d hd hi
  have hti : h.IsTerm atoms.size (.str i) := isHead_of_view? hv hc
  have htc := (view?_spec hw hti hv).2.isTerm_args c hc
  have h₁ := hV.size_part_le hw htc hd
  have h₂ : V d = V (.str i) := hV.derefWithin hw (hd.isTerm hw htc) hi
  have h₃ : (V c).size < (V (.str i)).size := by
    rw [hV.view hw hti hv]
    exact Tree.size_lt_of_mem (List.mem_map_of_mem hc)
  rw [h₂] at h₁
  omega

/-- In every valuation a term with a tree has this tree, with the trees of the unbound variables in
the places of these. -/
theorem Valued.eq_subst (hV : h.Valued atoms V) (hw : h.WellFormed atoms.size)
    {θ : Address → Tree} (hθ : ∀ i : Nat, h.get? i = some (.ref i) → V (.ref i) = θ i) {n : Nat}
    {c : Cell} {t : Tree} (hc : h.IsTerm atoms.size c)
    (ht : h.resolveWithin atoms n c = some t) : V c = t.subst θ := by
  induction n generalizing c t with
  | zero => cases ht
  | succ n ih =>
    obtain ⟨-, v, -, hv⟩ := exists_view?_of_resolveWithin ht
    obtain ⟨ts, hts, rfl⟩ := (resolveWithin_eq_some_iff hv).1 ht
    have hfits := (view?_spec hw hc hv).2
    have hargs : v.args.map V = ts.map (·.subst θ) :=
      map_eq_map_of_forall₂ hts fun d hd u hdu => ih (hfits.isTerm_args d hd) hdu
    rw [hV.view hw hc hv, hargs, View.subst_plug]
    cases v with
    | var i => exact hθ i hfits
    | _ => rfl

/-- The trees of all terms with the given trees in the places of unbound variables. -/
def valuation (h : Heap) (atoms : AtomTable) (θ : Address → Tree) (c : Cell) : Tree :=
  ((h.resolve? atoms c).map (·.subst θ)).getD (.atom "")

variable {θ : Address → Tree}

theorem valuation_of_resolve? {c : Cell} {t : Tree} (ht : h.resolve? atoms c = some t) :
    h.valuation atoms θ c = t.subst θ := by
  rw [valuation, ht]
  rfl

theorem valuation_of_view? {c d : Cell} (hcd : h.view? c = h.view? d) :
    h.valuation atoms θ c = h.valuation atoms θ d := by
  rw [valuation, valuation, resolve?, resolve?, resolveWithin_of_view? hcd]

/-- Every choice of trees for the unbound variables gives a valuation. -/
theorem valued_valuation (hw : h.WellFormed atoms.size) (hac : h.Acyclic) :
    h.Valued atoms (h.valuation atoms θ) := by
  have hslot : ∀ i c, h.get? i = some c → ¬ h.IsHead i →
      h.valuation atoms θ (.ref i) = h.valuation atoms θ c := fun i c hi hh =>
    valuation_of_view? (view?_ref hw hi hh)
  refine ⟨hslot, fun i f hi hf => ?_, fun f _ => rfl, fun n => rfl, fun n => rfl, fun n => rfl⟩
  have hc : h.IsTerm atoms.size (.str i) := ⟨f, hi, hf⟩
  obtain ⟨v, hv, hd, hfits⟩ := exists_view? hw hc
  obtain ⟨t, ht⟩ := exists_resolve? atoms hw hac hc
  obtain ⟨ts, hts, rfl⟩ := (resolve?_eq_some_iff hw hac hc hv).1 ht
  cases v with
  | compound j g args =>
    cases hd
    obtain rfl : f = g := by
      have := hfits.1
      rw [hi] at this
      exact Cell.con.inj (Option.some.inj this)
    have hargs : args.map (h.valuation atoms θ) = ts.map (·.subst θ) :=
      map_eq_map_of_forall₂ hts fun d _ u hdu => valuation_of_resolve? hdu
    rw [valuation_of_resolve? ht, View.subst_plug, map_args hw hslot hfits, hargs]
    rfl
  | _ => cases hd

theorem valuation_var {i : Nat} (hi : h.get? i = some (.ref i)) :
    h.valuation atoms θ (.ref i) = θ i :=
  valuation_of_resolve? (resolve?_ref atoms hi)

end Heap

end PrologTerms
