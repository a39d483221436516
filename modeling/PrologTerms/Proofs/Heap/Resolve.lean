import PrologTerms.Proofs.Heap.View
import PrologTerms.Proofs.Pairwise
import PrologTerms.Proofs.Tree
import Mathlib.Data.Finset.Card

/-!
# Heaps without circles

The form of a term and the trees of its arguments make up its tree. Every term of a heap in which no
compound term is a part of itself has a tree, and a search that goes as deep as the heap is large
finds it.
-/

namespace PrologTerms

/-- The tree of a form, given what variables stand for and the trees of the arguments. -/
def View.plug (atoms : AtomTable) (σ : Address → Tree) (ts : List Tree) : View → Tree
  | .var i => σ i
  | .compound _ f _ => .compound (atoms.name f.name) ts
  | .atom f => .atom (atoms.name f.name)
  | .int n => .int n
  | .big n => .big n
  | .global n => .global n

theorem View.subst_plug (atoms : AtomTable) (σ τ : Address → Tree) (ts : List Tree) (v : View) :
    (v.plug atoms σ ts).subst τ = v.plug atoms (fun i => (σ i).subst τ) (ts.map (·.subst τ)) := by
  cases v with
  | compound i f args => rw [plug, plug, Tree.subst_compound]
  | _ => rfl

namespace Heap

/-- The cells that are met on the way down from a term to its parts. -/
inductive Part (h : Heap) (c : Cell) : Cell → Prop
  /-- The term itself. -/
  | refl : Part h c c
  /-- An argument of a part. -/
  | arg {d e : Cell} {v : View} (hd : Part h c d) (hv : h.view? d = some v) (he : e ∈ v.args) :
      Part h c e

/-- No compound term is a part of one of its own arguments. -/
def Acyclic (h : Heap) : Prop :=
  ∀ i f args, h.view? (.str i) = some (.compound i f args) →
    ∀ c ∈ args, ∀ d, h.Part c d → h.deref? d ≠ some (.str i)

variable {h h' : Heap} {atoms : AtomTable} {k : Nat}

theorem Part.isTerm (hw : h.WellFormed k) {c d : Cell} (hc : h.IsTerm k c) (hd : h.Part c d) :
    h.IsTerm k d := by
  induction hd with
  | refl => exact hc
  | arg _ hv he ih => exact (view?_spec hw ih hv).2.isTerm_args _ he

theorem Part.trans {c d e : Cell} (h₁ : h.Part c d) (h₂ : h.Part d e) : h.Part c e := by
  induction h₂ with
  | refl => exact h₁
  | arg _ hv he ih => exact ih.arg hv he

/-- A term without arguments is its only part. -/
theorem Part.eq_of_args {c d : Cell} {v : View} (hd : h.Part c d) (hv : h.view? c = some v)
    (hargs : v.args = []) : d = c := by
  induction hd with
  | refl => rfl
  | arg _ hv' he ih =>
    subst ih
    rw [hv, Option.some.injEq] at hv'
    subst hv'
    rw [hargs] at he
    cases he

/-! ## Following variables -/

theorem derefWithin_mono {n m : Nat} {c d : Cell} (h₁ : h.derefWithin n c = some d)
    (hle : n ≤ m) : h.derefWithin m c = some d := by
  induction n generalizing m c with
  | zero => cases h₁
  | succ n ih =>
    obtain ⟨m, rfl⟩ : ∃ m', m = m' + 1 := ⟨m - 1, by omega⟩
    cases c with
    | ref i =>
      simp only [derefWithin] at h₁ ⊢
      cases hg : h.get? i with
      | none => rw [hg] at h₁; cases h₁
      | some c =>
        simp only [hg] at h₁ ⊢
        split
        · next e => rwa [if_pos e] at h₁
        · next e =>
          rw [if_neg e] at h₁
          exact ih h₁ (by omega)
    | _ => exact h₁

/-- A variable has the value of the cell that it is bound to. -/
theorem deref?_ref (hw : h.WellFormed k) {i : Nat} {c : Cell} (hi : h.get? i = some c)
    (hh : ¬ h.IsHead i) : h.deref? (.ref i) = h.deref? c := by
  have hlt := Arena.lt_size_of_get? hi
  have hc : h.IsTerm k c := hw.term i c hi hh
  by_cases e : c = .ref i
  · rw [e]
  · have hn : ∀ j : Nat, c = .ref j → j + 1 < h.size := by
      intro j hj
      have hle : j ≤ i := hw.older i j (hj ▸ hi)
      have hne : j ≠ i := fun e' => e (by rw [hj, e'])
      omega
    obtain ⟨d, hd, -⟩ := exists_derefWithin hw hc (by omega) hn
    have h₁ : h.deref? (.ref i) = h.derefWithin h.size c := by
      simp only [deref?, derefWithin, hi]
      rw [if_neg e]
    rw [h₁, hd]
    exact (derefWithin_mono hd (Nat.le_succ _)).symm

theorem view?_ref (hw : h.WellFormed k) {i : Nat} {c : Cell} (hi : h.get? i = some c)
    (hh : ¬ h.IsHead i) : h.view? (.ref i) = h.view? c := by
  rw [view?, view?, deref?_ref hw hi hh]

/-- The cell that a variable leads to has the same form. -/
theorem view?_of_deref? {c d : Cell} (hd : h.deref? c = some d) (hdd : h.deref? d = some d) :
    h.view? c = h.view? d := by
  rw [view?, view?, hd, hdd]

/-! ## Trees -/

/-- Terms of the same form have the same tree. -/
theorem resolveWithin_of_view? {c d : Cell} (hcd : h.view? c = h.view? d) (n : Nat) :
    h.resolveWithin atoms n c = h.resolveWithin atoms n d := by
  cases n with
  | zero => rfl
  | succ n => simp only [resolveWithin, hcd]

/-- The tree of a term is made up of its form and the trees of its arguments. -/
theorem resolveWithin_eq_some_iff {n : Nat} {c : Cell} {v : View} {t : Tree}
    (hv : h.view? c = some v) : h.resolveWithin atoms (n + 1) c = some t ↔
      ∃ ts, List.Forall₂ (fun d u => h.resolveWithin atoms n d = some u) v.args ts ∧
        v.plug atoms .var ts = t := by
  have leaf : ∀ u, v.args = [] → (∀ ts, v.plug atoms .var ts = u) →
      (some u = some t ↔ ∃ ts, List.Forall₂ (fun d u => h.resolveWithin atoms n d = some u)
        v.args ts ∧ v.plug atoms .var ts = t) := by
    intro u hargs hu
    rw [hargs]
    constructor
    · intro e
      exact ⟨[], .nil, (hu []).trans (Option.some.inj e)⟩
    · rintro ⟨ts, -, rfl⟩
      rw [hu]
  simp only [resolveWithin, hv]
  cases v with
  | compound i f args =>
    simp only [Option.map_eq_some_iff, mapM_eq_some_iff, View.args, View.plug]
  | _ => exact leaf _ rfl fun _ => rfl

theorem exists_view?_of_resolveWithin {n : Nat} {c : Cell} {t : Tree}
    (ht : h.resolveWithin atoms n c = some t) : ∃ m v, n = m + 1 ∧ h.view? c = some v := by
  cases n with
  | zero => cases ht
  | succ m =>
    cases hv : h.view? c with
    | none => simp only [resolveWithin, hv] at ht; cases ht
    | some v => exact ⟨m, v, rfl, rfl⟩

theorem resolve?_ref (atoms : AtomTable) {i : Nat} (hi : h.get? i = some (.ref i)) :
    h.resolve? atoms (.ref i) = some (.var i) := by
  have hd : h.deref? (.ref i) = some (.ref i) := by simp only [deref?, derefWithin, hi, if_true]
  have hv : h.view? (.ref i) = some (.var i) := by simp only [view?, hd]
  exact (resolveWithin_eq_some_iff hv).2 ⟨[], .nil, rfl⟩

/-- A search that goes deeper finds the same tree. -/
theorem resolveWithin_mono {n m : Nat} {c : Cell} {t : Tree}
    (ht : h.resolveWithin atoms n c = some t) (hle : n ≤ m) :
    h.resolveWithin atoms m c = some t := by
  induction n generalizing m c t with
  | zero => cases ht
  | succ n ih =>
    obtain ⟨m, rfl⟩ : ∃ m', m = m' + 1 := ⟨m - 1, by omega⟩
    obtain ⟨-, v, -, hv⟩ := exists_view?_of_resolveWithin ht
    obtain ⟨ts, hts, rfl⟩ := (resolveWithin_eq_some_iff hv).1 ht
    refine (resolveWithin_eq_some_iff hv).2 ⟨ts, hts.imp fun d u hd => ?_, rfl⟩
    exact ih hd (by omega)

theorem resolveWithin_inj {n m : Nat} {c : Cell} {t u : Tree}
    (ht : h.resolveWithin atoms n c = some t) (hu : h.resolveWithin atoms m c = some u) :
    t = u := by
  have h₁ := resolveWithin_mono ht (Nat.le_max_left n m)
  have h₂ := resolveWithin_mono hu (Nat.le_max_right n m)
  rw [h₁] at h₂
  exact Option.some.inj h₂

/-- The parts of a term with a tree have trees that are not larger. -/
theorem Part.exists_resolveWithin {n : Nat} {c d : Cell} {t : Tree} (hd : h.Part c d)
    (ht : h.resolveWithin atoms n c = some t) :
    ∃ m u, h.resolveWithin atoms m d = some u ∧ u.size ≤ t.size := by
  induction hd with
  | refl => exact ⟨n, t, ht, Nat.le_refl _⟩
  | @arg d e v _ hv he ih =>
    obtain ⟨m, u, hu, hle⟩ := ih
    obtain ⟨m, -, rfl, -⟩ := exists_view?_of_resolveWithin hu
    obtain ⟨ts, hts, rfl⟩ := (resolveWithin_eq_some_iff hv).1 hu
    obtain ⟨u, hmem, hu⟩ := exists_of_mem_left_of_forall₂ hts he
    refine ⟨m, u, hu, Nat.le_trans ?_ hle⟩
    cases v with
    | compound i f args => exact Nat.le_of_lt (Tree.size_lt_of_mem hmem)
    | _ => cases he

/-- No head is met twice on the way down to the leaves of a tree, so that a search that goes deeper than
there are heads to be met finds the tree. -/
theorem resolveWithin_of_heads (hw : h.WellFormed k) (s : Finset Nat) {n : Nat} {c : Cell} {t : Tree}
    (hc : h.IsTerm k c) (ht : h.resolveWithin atoms n c = some t)
    (hs : ∀ d i, h.Part c d → h.deref? d = some (.str i) → i ∈ s) :
    h.resolveWithin atoms (s.card + 1) c = some t := by
  induction n generalizing s c t with
  | zero => cases ht
  | succ n ih =>
    obtain ⟨-, v, -, hv⟩ := exists_view?_of_resolveWithin ht
    obtain ⟨ts, hts, rfl⟩ := (resolveWithin_eq_some_iff hv).1 ht
    obtain ⟨hd, hfits⟩ := view?_spec hw hc hv
    refine (resolveWithin_eq_some_iff hv).2 ⟨ts, ?_, rfl⟩
    cases v with
    | compound i f args =>
      have hcard : s.card = (s.erase i).card + 1 :=
        (Finset.card_erase_add_one (hs c i .refl hd)).symm
      rw [hcard]
      refine forall₂_imp_of_mem hts fun d u hmem hu hdu => ?_
      refine ih (s.erase i) (hfits.isTerm_args d hmem) hdu fun e j he hj => ?_
      refine Finset.mem_erase.2 ⟨?_, hs e j (.trans (.arg .refl hv hmem) he) hj⟩
      rintro rfl
      -- the tree of the head itself is too large for a part of one of its arguments
      obtain ⟨m, u', hu', hle⟩ := he.exists_resolveWithin hdu
      have hview : h.view? e = some (.compound j f args) := by
        rw [← hv, view?_of_deref? hj rfl, view?_of_deref? hd rfl]
        rfl
      obtain ⟨m, -, rfl, -⟩ := exists_view?_of_resolveWithin hu'
      have hsame : h.resolveWithin atoms (n + 1) e = some _ :=
        (resolveWithin_eq_some_iff hview).2 ⟨ts, hts, rfl⟩
      rw [resolveWithin_inj hu' hsame] at hle
      exact absurd (Tree.size_lt_of_mem hu) (Nat.not_lt.2 hle)
    | _ =>
      cases hts
      exact .nil

theorem mem_range_of_part (hw : h.WellFormed k) {c d : Cell} {i : Nat} (hc : h.IsTerm k c)
    (hd : h.Part c d) (hi : h.deref? d = some (.str i)) : i ∈ Finset.range h.size := by
  obtain ⟨e, he, ht, -⟩ := exists_deref? hw (hd.isTerm hw hc)
  rw [hi, Option.some.injEq] at he
  subst he
  exact Finset.mem_range.2 (IsHead.lt_size ht)

/-- The term has this tree, however deep it is. -/
def HasTree (h : Heap) (atoms : AtomTable) (c : Cell) (t : Tree) : Prop :=
  ∃ depth, h.resolveWithin atoms depth c = some t

/-- Every tree is found by a search that goes as deep as the heap is large. -/
theorem hasTree_iff (hw : h.WellFormed k) {c : Cell} {t : Tree} (hc : h.IsTerm k c) :
    h.HasTree atoms c t ↔ h.resolve? atoms c = some t := by
  refine ⟨fun ⟨n, ht⟩ => ?_, fun ht => ⟨_, ht⟩⟩
  have := resolveWithin_of_heads hw (Finset.range h.size) hc ht fun d i hd hi =>
    mem_range_of_part hw hc hd hi
  rwa [Finset.card_range] at this

/-- A search that goes deeper than there are heads to be met finds a tree. -/
theorem exists_resolveWithin (atoms : AtomTable) (hw : h.WellFormed k) (hac : h.Acyclic) (s : Finset Nat) {c : Cell}
    (hc : h.IsTerm k c) (hs : ∀ d i, h.Part c d → h.deref? d = some (.str i) → i ∈ s) :
    ∃ t, h.resolveWithin atoms (s.card + 1) c = some t := by
  induction hn : s.card generalizing s c with
  | zero =>
    obtain ⟨v, hv, hd, hf⟩ := exists_view? hw hc
    have hnil : v.args = [] := by
      cases v with
      | compound i f args =>
        have := hs c i .refl hd
        rw [Finset.card_eq_zero.1 hn] at this
        simp at this
      | _ => rfl
    exact ⟨_, (resolveWithin_eq_some_iff hv).2 ⟨[], by rw [hnil]; exact .nil, rfl⟩⟩
  | succ n ih =>
    obtain ⟨v, hv, hd, hf⟩ := exists_view? hw hc
    have hargs : ∀ d ∈ v.args, ∃ t, h.resolveWithin atoms (n + 1) d = some t := by
      intro d hmem
      have hpart : h.Part c d := .arg .refl hv hmem
      cases v with
      | compound i f args =>
        -- the head itself is not met again
        have hself : h.view? (.str i) = some (.compound i f args) := by
          rw [← hv]
          exact (view?_of_deref? hd rfl).symm
        refine ih (s.erase i) (hf.isTerm_args d hmem) (fun e j he hj => ?_) ?_
        · refine Finset.mem_erase.2 ⟨?_, hs e j (hpart.trans he) hj⟩
          rintro rfl
          exact hac j f args hself d hmem e he hj
        · rw [Finset.card_erase_of_mem (hs c i .refl hd)]
          omega
      | _ => cases hmem
    obtain ⟨ts, hts⟩ := exists_forall₂ hargs
    exact ⟨_, (resolveWithin_eq_some_iff hv).2 ⟨ts, hts, rfl⟩⟩

/-- Every term of a heap without circles has a tree. -/
theorem exists_resolve? (atoms : AtomTable) (hw : h.WellFormed k) (hac : h.Acyclic) {c : Cell}
    (hc : h.IsTerm k c) : ∃ t, h.resolve? atoms c = some t := by
  have := exists_resolveWithin atoms hw hac (Finset.range h.size) hc
  rw [Finset.card_range] at this
  exact this fun d i hd hi => mem_range_of_part hw hc hd hi

/-- The trees of the arguments of a term with a tree. -/
theorem resolve?_eq_some_iff (hw : h.WellFormed k) (hac : h.Acyclic) {c : Cell} {v : View}
    (hc : h.IsTerm k c) (hv : h.view? c = some v) {t : Tree} : h.resolve? atoms c = some t ↔
      ∃ ts, List.Forall₂ (fun d u => h.resolve? atoms d = some u) v.args ts ∧
        v.plug atoms .var ts = t := by
  rw [resolve?, resolveWithin_eq_some_iff hv]
  constructor
  · rintro ⟨ts, hts, rfl⟩
    exact ⟨ts, hts.imp fun d u hd => resolveWithin_mono hd (Nat.le_succ _), rfl⟩
  · rintro ⟨ts, hts, rfl⟩
    obtain ⟨t', ht'⟩ := exists_resolve? atoms hw hac hc
    obtain ⟨ts', hts', -⟩ := (resolveWithin_eq_some_iff hv).1 ht'
    have hinj : ∀ d u u', h.resolveWithin atoms h.size d = some u → h.resolve? atoms d = some u' →
        u = u' := fun _ _ _ h₁ h₂ => resolveWithin_inj h₁ h₂
    have e : ts' = ts := forall₂_inj hinj hts' hts
    exact ⟨ts, e ▸ hts', rfl⟩

end Heap

end PrologTerms
