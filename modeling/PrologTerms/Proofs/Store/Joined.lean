import PrologTerms.Proofs.Heap.Valuation
import PrologTerms.Proofs.Store.Unify

/-!
# Terms that have been unified

A variable may be bound to a term in which it occurs, and then there are terms that have no tree. But
every term can be looked at down to any depth, and terms that have been unified look the same down to
every depth. So if they have trees after all, then they have the same tree.
-/

namespace PrologTerms

namespace Heap

/-- What a term looks like down to a depth. -/
def cut (h : Heap) (atoms : AtomTable) : (depth : Nat) → Cell → Tree
  | 0, _ => .atom ""
  | depth + 1, c =>
    match h.view? c with
    | none => .atom ""
    | some v => v.plug atoms .var (v.args.map (h.cut atoms depth))

/-- The terms look the same down to every depth. -/
def Alike (h : Heap) (atoms : AtomTable) (a b : Cell) : Prop := ∀ n, h.cut atoms n a = h.cut atoms n b

/-- The heap `h'` has come from `h` by binding variables. -/
structure Binds (h h' : Heap) : Prop where
  /-- Terms stay terms. -/
  keeps : h.Keeps h'
  /-- What is no unbound variable stays. -/
  get?_eq : ∀ i c, h.get? i = some c → c ≠ .ref i → h'.get? i = some c

variable {h h' h'' : Heap} {atoms : AtomTable} {n k : Nat} {a b c d : Cell} {v : View} {t u : Tree}

theorem cut_of_view? (hv : h.view? c = some v) :
    h.cut atoms (n + 1) c = v.plug atoms .var (v.args.map (h.cut atoms n)) := by
  rw [cut, hv]

theorem cut_congr (hcd : h.view? c = h.view? d) (n : Nat) : h.cut atoms n c = h.cut atoms n d := by
  cases n with
  | zero => rfl
  | succ n => rw [cut, cut, hcd]

/-- A tree is what a term looks like if the look is deep enough. -/
theorem cut_of_resolveWithin (ht : h.resolveWithin atoms n c = some t) : h.cut atoms n c = t := by
  induction n generalizing c t with
  | zero => cases ht
  | succ n ih =>
    obtain ⟨-, v, -, hv⟩ := exists_view?_of_resolveWithin ht
    obtain ⟨ts, hts, rfl⟩ := (resolveWithin_eq_some_iff hv).1 ht
    have hargs : v.args.map (h.cut atoms n) = ts.map id :=
      map_eq_map_of_forall₂ hts fun d _ u hu => ih hu
    rw [cut_of_view? hv, hargs, List.map_id]

/-- Terms that look the same have the same tree, if any. -/
theorem Alike.tree_eq (hab : h.Alike atoms a b) (ht : h.HasTree atoms a t)
    (hu : h.HasTree atoms b u) : t = u := by
  obtain ⟨n, ht⟩ := ht
  obtain ⟨m, hu⟩ := hu
  have ht := cut_of_resolveWithin (resolveWithin_mono ht (Nat.le_max_left n m))
  have hu := cut_of_resolveWithin (resolveWithin_mono hu (Nat.le_max_right n m))
  rw [← ht, ← hu]
  exact hab _

/-! ## Binding variables -/

theorem Binds.refl (h : Heap) : h.Binds h := ⟨.refl h, fun _ _ hi _ => hi⟩

theorem Binds.trans (h₁ : h.Binds h') (h₂ : h'.Binds h'') : h.Binds h'' :=
  ⟨h₁.keeps.trans h₂.keeps, fun i c hi hc => h₂.get?_eq i c (h₁.get?_eq i c hi hc) hc⟩

/-- A variable looks like the cell that it was bound to at any time. -/
theorem Binds.cut_slot (hb : h.Binds h') (hw : h'.WellFormed k) (n : Nat) (i : Address) (c : Cell)
    (hi : h.get? i = some c) (hh : ¬ h.IsHead i) : h'.cut atoms n (.ref i) = h'.cut atoms n c := by
  by_cases hc : c = .ref i
  · rw [hc]
  · have hh' : ¬ h'.IsHead i := fun e => hh ((hb.keeps.isHead_iff (Arena.lt_size_of_get? hi)).1 e)
    exact cut_congr (view?_ref hw (hb.get?_eq i c hi hc) hh') n

/-- An unbound variable that is bound to a term looks like it from then on. -/
theorem Binds.cut_set {i : Address} (hb : Heap.Binds (h.set i c) h') (hw : h'.WellFormed k)
    (hi : h.get? i = some (.ref i)) (hc : h.IsTerm k c) (n : Nat) :
    h'.cut atoms n (.ref i) = h'.cut atoms n c := by
  have hslot : Arena.get? (h.set i c) i = some c := by
    rw [Arena.get?_set, if_pos ⟨rfl, Arena.lt_size_of_get? hi⟩]
  have hhead : ¬ Heap.IsHead (h.set i c) i := by
    rintro ⟨f, hf, hpos⟩
    rw [hslot, Option.some.injEq] at hf
    have := (hf ▸ hc).arity_eq_zero
    omega
  exact hb.cut_slot hw n i c hslot hhead

/-- A term looks like the cell that it led to at any time. -/
theorem Binds.cut_cell (hb : h.Binds h') (hw : h.WellFormed k) (hw' : h'.WellFormed k)
    (hc : h.IsTerm k c) (hv : h.view? c = some v) (n : Nat) :
    h'.cut atoms n c = h'.cut atoms n v.cell :=
  eq_of_derefWithin (hb.cut_slot hw' n) hw hc (view?_spec hw hc hv).1

/-- A compound term looks like its arguments of any time make it look. -/
theorem Binds.cut_compound (hb : h.Binds h') (hw : h.WellFormed atoms.size)
    (hw' : h'.WellFormed atoms.size) (hc : h.IsTerm atoms.size c) {i : Address} {f : Functor}
    {args : List Cell} (hv : h.view? c = some (.compound i f args)) (n : Nat) :
    h'.cut atoms (n + 1) c = .compound (atoms.name f.name) (args.map (h'.cut atoms n)) := by
  have hfits := (view?_spec hw hc hv).2
  have hi : h'.IsTerm atoms.size (.str i) := hfits.isTerm_cell.mono hb.keeps (Nat.le_refl _)
  obtain ⟨v', hv', hd, hfits'⟩ := exists_view? hw' hi
  cases v' with
  | compound j g args' =>
    cases hd
    obtain rfl : f = g := by
      have hf := (hb.keeps.head i f (Arena.lt_size_of_get? hfits.1) hfits.2.1).2 hfits.1
      rw [hfits'.1] at hf
      exact (Cell.con.inj (Option.some.inj hf)).symm
    -- the slots of the arguments may have been bound since, so that the arguments are others now
    have hargs : args'.map (h'.cut atoms n) = args.map (h'.cut atoms n) := by
      rw [← map_args hw' ((Binds.refl h').cut_slot hw' n) hfits',
        ← map_args hw (hb.cut_slot hw' n) hfits]
    rw [hb.cut_cell hw hw' hc hv]
    show h'.cut atoms (n + 1) (.str i) = _
    rw [cut_of_view? hv', ← hargs]
    rfl
  | _ => cases hd

end Heap

namespace Store

/-- The heap has come from that of the store by binding variables, and the pending terms look the same
on it. -/
structure Settled (s : Store) (atoms : AtomTable) (heap : Heap) : Prop where
  /-- Only variables have been bound. -/
  binds : s.heap.Binds heap
  /-- The pending terms look the same. -/
  alike : ∀ p ∈ s.pending, heap.Alike atoms p.1 p.2

variable {s s' : Store} {atoms : AtomTable} {heap : Heap} {a b : Cell}

theorem binds_bind {i : Address} {c : Cell} (hi : s.heap.get? i = some (.ref i))
    (hk : s.heap.Keeps (s.bind i c).heap) : s.heap.Binds (s.bind i c).heap := by
  refine ⟨hk, fun j d hj hd => ?_⟩
  have hij : ¬ (i = j ∧ i < s.heap.size) := by
    rintro ⟨rfl, -⟩
    rw [hi, Option.some.injEq] at hj
    exact hd hj.symm
  rw [bind, Arena.get?_set, if_neg hij, hj]

theorem settled_of_cons {pairs : List (Cell × Cell)} (hp : s.pending = (a, b) :: pairs)
    (hb : s.heap.Binds heap) (hab : heap.Alike atoms a b)
    (hpairs : ∀ p ∈ pairs, heap.Alike atoms p.1 p.2) : s.Settled atoms heap := by
  refine ⟨hb, fun p hmem => ?_⟩
  rcases List.mem_cons.1 (hp ▸ hmem) with rfl | hmem
  · exact hab
  · exact hpairs p hmem

/-- What settles the pending pairs after a step has settled those before it. -/
theorem Settled.of_unifyStep (hs : s.Sound atoms.size) (hw : heap.WellFormed atoms.size)
    (h : unifyStep s = .more s') (hset : s'.Settled atoms heap) : s.Settled atoms heap := by
  have hk := (sound_unifyStep hs h).2
  have ho := outcome_unifyStep hs
  rw [h] at ho
  -- the first pair is settled by what the step does, and the others are pending still
  cases ho with
  | @same a b pairs v hp ha hb =>
    obtain ⟨hta, htb⟩ := hs.pending (a, b) (hp ▸ List.mem_cons_self)
    refine settled_of_cons hp hset.binds (fun n => ?_) hset.alike
    rw [hset.binds.cut_cell hs.heap hw hta ha, hset.binds.cut_cell hs.heap hw htb hb]
  | @bound a b pairs i v hp hab hv =>
    obtain ⟨hta, htb⟩ := hs.pending (a, b) (hp ▸ List.mem_cons_self)
    obtain ⟨hi, hfits⟩ := hs.unbound hp hab
    have hbinds : s.heap.Binds heap :=
      (binds_bind (s := { s with pending := pairs }) hi hk).trans hset.binds
    have hvar : ∀ n, heap.cut atoms n (.ref i) = heap.cut atoms n v.cell :=
      hset.binds.cut_set hw hi hfits.isTerm_cell
    refine settled_of_cons hp hbinds (fun n => ?_) hset.alike
    rcases hab with ⟨ha, hb⟩ | ⟨ha, hb⟩
    · rw [hbinds.cut_cell hs.heap hw hta ha, hbinds.cut_cell hs.heap hw htb hb]
      exact hvar n
    · rw [hbinds.cut_cell hs.heap hw hta ha, hbinds.cut_cell hs.heap hw htb hb]
      exact (hvar n).symm
  | @split a b pairs i j f as bs hp ha hb hij =>
    obtain ⟨hta, htb⟩ := hs.pending (a, b) (hp ▸ List.mem_cons_self)
    have hla := (Heap.view?_spec hs.heap hta ha).2.2.2.1
    have hlb := (Heap.view?_spec hs.heap htb hb).2.2.2.1
    obtain ⟨hargs, hpairs⟩ := List.forall_mem_append.1 hset.alike
    refine settled_of_cons hp hset.binds (fun n => ?_) hpairs
    cases n with
    | zero => rfl
    | succ n =>
      rw [hset.binds.cut_compound hs.heap hw hta ha, hset.binds.cut_compound hs.heap hw htb hb,
        (map_eq_map_iff_of_zip (hla.trans hlb.symm)).2 fun p hp => hargs p hp n]

/-- When no pair is left, all that were ever pending have been settled. -/
theorem settled_of_steps (hs : s.Sound atoms.size) {n : Nat} (h : Iteration.Steps unifyStep n s s')
    (hp : s'.pending = []) : s.Settled atoms s'.heap := by
  have hw := (sound_steps hs h).1.heap
  induction h with
  | refl s => exact ⟨.refl _, by simp [hp]⟩
  | head hstep _ ih =>
    have hs' := (sound_unifyStep hs hstep).1
    exact (ih hs' hp hw).of_unifyStep hs hw hstep

/-- Terms that have been unified look the same down to every depth. -/
theorem alike_of_solve? (hs : s.Sound atoms.size) (ha : s.heap.IsTerm atoms.size a)
    (hb : s.heap.IsTerm atoms.size b) (h : s.solve? a b = some (.unified, s')) :
    s'.heap.Alike atoms a b := by
  obtain ⟨⟨v, t⟩, hrun, e⟩ := Option.map_eq_some_iff.1 h
  cases e
  obtain ⟨n, t', hsteps, hdone⟩ := Iteration.endsAfter_of_run hrun
  have hs₀ := hs.of_pending [(a, b)] (by simpa using ⟨ha, hb⟩)
  have ho := outcome_unifyStep (sound_steps hs₀ hsteps).1
  rw [hdone] at ho
  cases ho with
  | finished hp => exact (settled_of_steps hs₀ hsteps hp).alike (a, b) List.mem_cons_self
  | clash hp ha hb hva hvb hne hv => simp at hv

end Store

end PrologTerms
