import PrologTerms.Proofs.Atom
import PrologTerms.Proofs.Heap.Resolve

/-!
# Trees on a heap that grows

Slots and atoms that are added change no term that is there already, and the tree of a new term is made
up of the trees of its parts.
-/

namespace PrologTerms.Heap

variable {h h' : Heap} {atoms atoms' : AtomTable} {c d : Cell} {n : Nat}

theorem Grows.get?_eq_some (hg : h.Grows h') {i : Nat} (hi : h.get? i = some c) :
    h'.get? i = some c := by
  rw [hg.get?_eq i (Arena.lt_size_of_get? hi), hi]

theorem Grows.exists_append (hg : h.Grows h') : ∃ cells, h' = h.append cells := by
  refine ⟨h'.toList.drop h.size, Arena.ext_get? fun i => ?_⟩
  rw [Arena.get?_append]
  split
  · next hi => exact hg.get?_eq i hi
  · next hi =>
    rw [List.getElem?_drop, Arena.getElem?_toList, Nat.add_sub_cancel' (Nat.le_of_not_lt hi)]

theorem Grows.derefWithin (hg : h.Grows h') (hd : h.derefWithin n c = some d) :
    h'.derefWithin n c = some d := by
  induction n generalizing c with
  | zero => cases hd
  | succ n ih =>
    cases c with
    | ref i =>
      simp only [Heap.derefWithin] at hd ⊢
      cases hi : h.get? i with
      | none => rw [hi] at hd; cases hd
      | some c =>
        rw [hi] at hd
        rw [hg.get?_eq_some hi]
        simp only at hd ⊢
        split
        · next e => rwa [if_pos e] at hd
        · next e =>
          rw [if_neg e] at hd
          exact ih hd
    | _ => exact hd

theorem Grows.compound? (hg : h.Grows h') {i : Nat} {p : Functor × List Cell}
    (hp : h.compound? i = some p) : h'.compound? i = some p := by
  have hle := hg.size_le
  unfold Heap.compound? at hp ⊢
  split at hp
  · next f hi =>
    rw [hg.get?_eq_some hi]
    simp only
    split at hp
    · next hlt =>
      cases hp
      have hlt : (i : Nat) + f.arity < h.size := hlt
      have hslice : h'.slice (i + 1) f.arity = h.slice (i + 1) f.arity := by
        apply List.ext_getElem?
        intro k
        rw [Arena.getElem?_slice, Arena.getElem?_slice]
        split
        · exact hg.get?_eq _ (by omega)
        · rfl
      have hlt' : (i : Nat) + f.arity < h'.size := by omega
      rw [if_pos hlt', hslice]
    · cases hp
  · cases hp

/-- A term keeps its form. -/
theorem Grows.view? (hg : h.Grows h') {v : View} (hv : h.view? c = some v) :
    h'.view? c = some v := by
  unfold Heap.view? at hv ⊢
  cases hd : h.deref? c with
  | none => rw [hd] at hv; cases hv
  | some d =>
    have hd' : h'.deref? c = some d :=
      derefWithin_mono (hg.derefWithin hd) (Nat.succ_le_succ hg.size_le)
    rw [hd] at hv
    rw [hd']
    cases d with
    | str i =>
      simp only [Option.map_eq_some_iff] at hv ⊢
      obtain ⟨p, hp, e⟩ := hv
      exact ⟨p, hg.compound? hp, e⟩
    | _ => exact hv

/-- A variable keeps its value. -/
theorem Grows.deref? {k : Nat} (hg : h.Grows h') (hw : h.WellFormed k) (hc : h.IsTerm k c) :
    h'.deref? c = h.deref? c := by
  obtain ⟨d, hd, -⟩ := exists_deref? hw hc
  rw [hd]
  exact derefWithin_mono (hg.derefWithin hd) (Nat.succ_le_succ hg.size_le)

/-- A term has the same trees as before, found at the same depth. -/
theorem Grows.resolveWithin_iff (hg : h.Grows h') (hx : atoms.Extends atoms')
    (hw : h.WellFormed atoms.size) {t : Tree} (hc : h.IsTerm atoms.size c) :
    h'.resolveWithin atoms' n c = some t ↔ h.resolveWithin atoms n c = some t := by
  induction n generalizing c t with
  | zero => exact Iff.rfl
  | succ n ih =>
    obtain ⟨v, hv, -, hfits⟩ := exists_view? hw hc
    have hplug : ∀ ts, v.plug atoms' .var ts = v.plug atoms .var ts := by
      intro ts
      cases v with
      | compound i f args =>
        rw [View.plug, View.plug, hx.name_eq (View.Fits.name_lt hfits hw rfl)]
      | atom f => rw [View.plug, View.plug, hx.name_eq (View.Fits.name_lt hfits hw rfl)]
      | _ => rfl
    rw [resolveWithin_eq_some_iff hv, resolveWithin_eq_some_iff (hg.view? hv)]
    refine exists_congr fun ts => ?_
    rw [hplug ts]
    refine and_congr_left fun _ => ⟨fun hts => ?_, fun hts => ?_⟩
    · exact forall₂_imp_of_mem hts fun d u hd _ hu => (ih (hfits.isTerm_args d hd)).1 hu
    · exact forall₂_imp_of_mem hts fun d u hd _ hu => (ih (hfits.isTerm_args d hd)).2 hu

/-- A term keeps its tree. -/
theorem Grows.resolveWithin (hg : h.Grows h') (hx : atoms.Extends atoms')
    (hw : h.WellFormed atoms.size) {t : Tree} (hc : h.IsTerm atoms.size c)
    (ht : h.resolveWithin atoms n c = some t) : h'.resolveWithin atoms' n c = some t :=
  (hg.resolveWithin_iff hx hw hc).2 ht

theorem Grows.resolve? (hg : h.Grows h') (hx : atoms.Extends atoms')
    (hw : h.WellFormed atoms.size) {t : Tree} (hc : h.IsTerm atoms.size c)
    (ht : h.resolve? atoms c = some t) : h'.resolve? atoms' c = some t :=
  resolveWithin_mono (hg.resolveWithin hx hw hc ht) (Nat.succ_le_succ hg.size_le)

/-- A term has no other tree than before, and none if it had none. -/
theorem Grows.resolve?_eq {k : Nat} (hg : h.Grows h') (hx : atoms.Extends atoms')
    (hw : h.WellFormed atoms.size) (hw' : h'.WellFormed k) (hk : atoms.size ≤ k)
    (hc : h.IsTerm atoms.size c) : h'.resolve? atoms' c = h.resolve? atoms c := by
  refine Option.ext fun t => ?_
  rw [← hasTree_iff hw hc, ← hasTree_iff hw' (hc.mono hg.keeps hk)]
  exact exists_congr fun _ => hg.resolveWithin_iff hx hw hc

/-! ## The trees of new terms -/

theorem view?_newCompound (h : Heap) {f : Functor} {args : List Cell} (hf : f.arity = args.length) :
    (h.newCompound f args).2.view? (h.newCompound f args).1 = some (.compound h.size f args) := by
  have hget := get?_newCompound h f args
  have hsize := size_newCompound h f args
  have hc : (h.newCompound f args).1 = .str h.size := rfl
  rw [hc]
  generalize (h.newCompound f args).2 = h' at hget hsize
  have hd : h'.deref? (.str h.size) = some (.str h.size) := rfl
  have hhead : h'.get? h.size = some (.con f) := by simp [hget]
  have hargs : h'.slice (h.size + 1) f.arity = args := by
    apply List.ext_getElem?
    intro k
    rw [Arena.getElem?_slice]
    by_cases hk : k < f.arity
    · rw [if_pos hk, hget, if_neg (by omega), if_neg (by omega), Nat.add_sub_cancel_left]
    · rw [if_neg hk, List.getElem?_eq_none (by omega)]
  have hlt : h.size + f.arity < h'.size := by omega
  simp [Heap.view?, hd, Heap.compound?, hhead, hlt, hargs]

/-- The tree of a new compound term, given the trees of its arguments. -/
theorem resolve?_newCompound {f : Functor} {args : List Cell} {ts : List Tree}
    (hw : h.WellFormed atoms.size) (hf : f.arity = args.length)
    (hargs : ∀ c ∈ args, h.IsTerm atoms.size c) (hpos : 0 < args.length)
    (hts : List.Forall₂ (fun c t => h.resolve? atoms c = some t) args ts) :
    (h.newCompound f args).2.resolve? atoms (h.newCompound f args).1 =
      some (.compound (atoms.name f.name) ts) := by
  have hg := grows_newCompound h f args
  have hsize := size_newCompound h f args
  refine (resolveWithin_eq_some_iff (view?_newCompound h hf)).2 ⟨ts, ?_, rfl⟩
  refine List.forall₂_iff_get.2 ⟨hts.length_eq, fun i h₁ h₂ => ?_⟩
  have harg := hargs _ (List.get_mem args ⟨i, h₁⟩)
  have ht := (List.forall₂_iff_get.1 hts).2 i h₁ h₂
  exact resolveWithin_mono (hg.resolveWithin (.refl atoms) hw harg ht) (by omega)

end PrologTerms.Heap
