import PrologTerms.Proofs.Heap.Rounds
import PrologTerms.Proofs.Heap.Valuation

/-!
# Comparing terms

While the pairs that are compared have finite trees, the trees that are still to be compared become
smaller with every step, and they are equal in pairs if and only if they were before. So the comparison
comes to an end, and says whether the two trees that it began with are the same.
-/

namespace PrologTerms

/-- Forms with different symbols have different trees. -/
theorem View.plug_ne {h : Heap} {atoms : AtomTable} {va vb : View} (hat : atoms.WellFormed)
    (hw : h.WellFormed atoms.size) (ha : va.Fits h atoms.size) (hb : vb.Fits h atoms.size)
    (hne : va.head ≠ vb.head) (V : Cell → Tree) :
    va.plug atoms .var (va.args.map V) ≠ vb.plug atoms .var (vb.args.map V) := by
  intro e
  cases hva : va.isVar with
  | true =>
    cases va with
    | var i =>
      cases vb with
      | var j =>
        cases e
        exact hne rfl
      | _ => cases e
    | _ => cases hva
  | false =>
    cases hvb : vb.isVar with
    | true =>
      cases vb with
      | var j => cases va <;> cases e; cases hva
      | _ => cases hvb
    | false => exact hne (View.plug_inj hat hw ha hb hva hvb e).1

namespace Heap

variable {h : Heap} {atoms : AtomTable} {c : Cell} {v : View} {ps qs : List (Cell × Cell)}

/-! ## Terms with finite trees -/

/-- The cell is a term with a finite tree. -/
structure IsFinite (h : Heap) (atoms : AtomTable) (c : Cell) : Prop where
  /-- It is a term. -/
  isTerm : h.IsTerm atoms.size c
  /-- It has a tree. -/
  tree : ∃ t, h.HasTree atoms c t

theorem HasTree.valuation (hw : h.WellFormed atoms.size) (hc : h.IsTerm atoms.size c) {t : Tree}
    (ht : h.HasTree atoms c t) : h.valuation atoms .var c = t := by
  rw [valuation_of_resolve? ((hasTree_iff hw hc).1 ht), Tree.subst_var]

/-- The cell that a variable leads to is a term with the same tree. -/
theorem IsFinite.deref (hw : h.WellFormed atoms.size) (hc : h.IsFinite atoms c) :
    ∃ d, h.deref? c = some d ∧ h.IsFinite atoms d ∧
      h.valuation atoms .var d = h.valuation atoms .var c := by
  obtain ⟨hterm, t, n, ht⟩ := hc
  obtain ⟨d, hd, htd, hend⟩ := exists_deref? hw hterm
  have hdd : h.deref? d = some d := by
    cases d with
    | ref i => simp only [deref?, derefWithin, hend i rfl, if_true]
    | _ => rfl
  have hview : h.view? c = h.view? d := view?_of_deref? hd hdd
  rw [resolveWithin_of_view? hview] at ht
  exact ⟨d, hd, ⟨htd, t, n, ht⟩, (valuation_of_view? hview).symm⟩

/-- The arguments of a term with a finite tree have finite trees, which make up its tree. -/
theorem IsFinite.view (hw : h.WellFormed atoms.size) (hc : h.IsFinite atoms c)
    (hv : h.view? c = some v) : (∀ d ∈ v.args, h.IsFinite atoms d) ∧
      h.valuation atoms .var c = v.plug atoms .var (v.args.map (h.valuation atoms .var)) := by
  obtain ⟨hterm, t, n, ht⟩ := hc
  have hargs := (view?_spec hw hterm hv).2.isTerm_args
  obtain ⟨n, -, rfl, -⟩ := exists_view?_of_resolveWithin ht
  obtain ⟨ts, hts, rfl⟩ := (resolveWithin_eq_some_iff hv).1 ht
  constructor
  · intro d hd
    obtain ⟨u, -, hu⟩ := exists_of_mem_left_of_forall₂ hts hd
    exact ⟨hargs d hd, u, n, hu⟩
  · have hmap : v.args.map (h.valuation atoms .var) = ts.map id :=
      map_eq_map_of_forall₂ hts fun d hd u hu => HasTree.valuation hw (hargs d hd) ⟨n, hu⟩
    rw [HasTree.valuation hw hterm ⟨n + 1, ht⟩, hmap, List.map_id]

/-- The terms of the pairs have finite trees. -/
def AreFinite (h : Heap) (atoms : AtomTable) (ps : List (Cell × Cell)) : Prop :=
  ∀ p ∈ ps, h.IsFinite atoms p.1 ∧ h.IsFinite atoms p.2

/-- The terms of each pair have the same tree. -/
def Agree (h : Heap) (atoms : AtomTable) (ps : List (Cell × Cell)) : Prop :=
  ∀ p ∈ ps, h.valuation atoms .var p.1 = h.valuation atoms .var p.2

/-- The size of the trees that are waiting on one side. -/
def waiting (h : Heap) (atoms : AtomTable) (ps : List (Cell × Cell)) : Nat :=
  (ps.map fun p => (h.valuation atoms .var p.1).size).sum

theorem agree_cons {p : Cell × Cell} : h.Agree atoms (p :: ps) ↔
    h.valuation atoms .var p.1 = h.valuation atoms .var p.2 ∧ h.Agree atoms ps :=
  List.forall_mem_cons

theorem agree_append : h.Agree atoms (ps ++ qs) ↔ h.Agree atoms ps ∧ h.Agree atoms qs :=
  List.forall_mem_append

theorem AreFinite.isTerm (hf : h.AreFinite atoms ps) :
    ∀ p ∈ ps, h.IsTerm atoms.size p.1 ∧ h.IsTerm atoms.size p.2 :=
  fun p hp => ⟨(hf p hp).1.isTerm, (hf p hp).2.isTerm⟩

/-- A step that goes on leaves it open in the same way whether all trees are the same, and less to
compare. -/
theorem Compared.more (hc : h.Compared ps (.more qs)) (hw : h.WellFormed atoms.size)
    (hf : h.AreFinite atoms ps) : h.AreFinite atoms qs ∧
      (h.Agree atoms qs ↔ h.Agree atoms ps) ∧ h.waiting atoms qs < h.waiting atoms ps := by
  obtain ⟨p, pairs, rfl⟩ : ∃ p pairs, ps = p :: pairs := by
    cases hc with
    | same => exact ⟨_, _, rfl⟩
    | split => exact ⟨_, _, rfl⟩
  obtain ⟨⟨hfa, hfb⟩, hpairs⟩ := List.forall_mem_cons.1 hf
  have hsum : h.waiting atoms (p :: pairs) =
      (h.valuation atoms .var p.1).size + h.waiting atoms pairs := rfl
  rw [hsum, agree_cons]
  cases hc with
  | @same a b _ v ha hb =>
    have htree : h.valuation atoms .var a = h.valuation atoms .var b :=
      valuation_of_view? (ha.trans hb.symm)
    refine ⟨hpairs, ⟨fun h => ⟨htree, h⟩, fun h => h.2⟩, ?_⟩
    exact Nat.lt_add_of_pos_left (Tree.size_pos _)
  | @split a b _ i j f as bs ha hb hij =>
    obtain ⟨hargsa, htreea⟩ := hfa.view hw ha
    obtain ⟨hargsb, htreeb⟩ := hfb.view hw hb
    have hla := (view?_spec hw hfa.isTerm ha).2.2.2.1
    have hlb := (view?_spec hw hfb.isTerm hb).2.2.2.1
    have hlen : as.length = bs.length := hla.trans hlb.symm
    refine ⟨List.forall_mem_append.2 ⟨fun q hq => ?_, hpairs⟩, ?_, ?_⟩
    · obtain ⟨h₁, h₂⟩ := List.of_mem_zip (a := q.1) (b := q.2) hq
      exact ⟨hargsa _ h₁, hargsb _ h₂⟩
    · have hzip : h.Agree atoms (as.zip bs) ↔
          as.map (h.valuation atoms .var) = bs.map (h.valuation atoms .var) :=
        (map_eq_map_iff_of_zip hlen).symm
      have hargs : h.valuation atoms .var a = h.valuation atoms .var b ↔
          as.map (h.valuation atoms .var) = bs.map (h.valuation atoms .var) := by
        rw [htreea, htreeb]
        exact ⟨fun e => (Tree.compound.inj e).2, fun e => congrArg _ e⟩
      rw [agree_append, hzip, hargs]
    · have hfst : (as.zip bs).map Prod.fst = as := List.map_fst_zip (Nat.le_of_eq hlen)
      have hwaiting : h.waiting atoms (as.zip bs ++ pairs) =
          ((as.map (h.valuation atoms .var)).map Tree.size).sum + h.waiting atoms pairs := by
        conv =>
          rhs
          rw [← hfst]
        simp only [waiting, List.map_append, List.sum_append, List.map_map]
        rfl
      have hsize : (h.valuation atoms .var a).size =
          1 + ((as.map (h.valuation atoms .var)).map Tree.size).sum := by
        rw [htreea]
        exact Tree.size_compound _ _
      rw [hwaiting, hsize]
      omega

/-- A step that ends the comparison says whether all trees are the same. -/
theorem Compared.done {r : Option Bool} (hc : h.Compared ps (.done r)) (hat : atoms.WellFormed)
    (hw : h.WellFormed atoms.size) (hf : h.AreFinite atoms ps) :
    ∃ b, r = some b ∧ (b = true ↔ h.Agree atoms ps) := by
  cases hc with
  | finished => exact ⟨true, rfl, iff_of_true rfl fun p hp => absurd hp List.not_mem_nil⟩
  | @differ a b pairs va vb ha hb hne =>
    obtain ⟨⟨hfa, hfb⟩, -⟩ := List.forall_mem_cons.1 hf
    refine ⟨false, rfl, iff_of_false Bool.false_ne_true fun hagree => ?_⟩
    have htree := (agree_cons.1 hagree).1
    rw [(hfa.view hw ha).2, (hfb.view hw hb).2] at htree
    exact View.plug_ne hat hw (view?_spec hw hfa.isTerm ha).2 (view?_spec hw hfb.isTerm hb).2 hne _
      htree

/-! ## The whole comparison -/

theorem steps_compareStep (hw : h.WellFormed atoms.size) (hf : h.AreFinite atoms ps) {n : Nat}
    (hs : Iteration.Steps h.compareStep n ps qs) :
    h.AreFinite atoms qs ∧ (h.Agree atoms qs ↔ h.Agree atoms ps) := by
  refine hs.preserves (P := fun rs => h.AreFinite atoms rs ∧ (h.Agree atoms rs ↔ h.Agree atoms ps))
    ?_ ⟨hf, Iff.rfl⟩
  rintro rs rs' ⟨hrs, hagree⟩ hstep
  have hc := compared_compareStep hw hrs.isTerm
  rw [hstep] at hc
  obtain ⟨hrs', hiff, -⟩ := hc.more hw hrs
  exact ⟨hrs', hiff.trans hagree⟩

/-- A comparison of terms with finite trees comes to an end, and says whether the trees are the same. -/
theorem endsAfter_compareStep (hat : atoms.WellFormed) (hw : h.WellFormed atoms.size)
    (hf : h.AreFinite atoms ps) : ∃ n b,
      Iteration.EndsAfter h.compareStep n ps (some b) ∧ (b = true ↔ h.Agree atoms ps) := by
  have hless : ∀ qs rs, h.AreFinite atoms qs → h.compareStep qs = .more rs →
      h.AreFinite atoms rs ∧ h.waiting atoms rs < h.waiting atoms qs := by
    intro qs rs hqs hstep
    have hc := compared_compareStep hw hqs.isTerm
    rw [hstep] at hc
    obtain ⟨hrs, -, hlt⟩ := hc.more hw hqs
    exact ⟨hrs, hlt⟩
  obtain ⟨n, r, qs, hsteps, hdone⟩ := Iteration.exists_endsAfter (h.waiting atoms) hless hf
  obtain ⟨hqs, hagree⟩ := steps_compareStep hw hf hsteps
  have hc := compared_compareStep hw hqs.isTerm
  rw [hdone] at hc
  obtain ⟨b, rfl, hb⟩ := hc.done hat hw hqs
  exact ⟨n, b, ⟨qs, hsteps, hdone⟩, hb.trans hagree⟩

variable {a b : Cell}

/-- Comparing two terms with finite trees comes to an end with the answer. -/
theorem exists_endsAfter_compare (hat : atoms.WellFormed) (hw : h.WellFormed atoms.size)
    (ha : h.IsFinite atoms a) (hb : h.IsFinite atoms b) :
    ∃ n r, Iteration.EndsAfter h.compareStep n [(a, b)] (some r) ∧ h.equal? a b = some r ∧
      (r = true ↔ h.valuation atoms .var a = h.valuation atoms .var b) := by
  have hf : h.AreFinite atoms [(a, b)] := by
    intro p hp
    rw [List.mem_singleton.1 hp]
    exact ⟨ha, hb⟩
  obtain ⟨n, r, hends, hr⟩ := endsAfter_compareStep hat hw hf
  refine ⟨n, r, hends, (equal?_eq_some_iff hw ha.isTerm hb.isTerm).2 ⟨n, hends⟩,
    hr.trans ⟨fun h => h (a, b) List.mem_cons_self, fun h p hp => ?_⟩⟩
  rw [List.mem_singleton.1 hp]
  exact h

/-- There is an answer, and it is right. -/
theorem exists_equal? (hat : atoms.WellFormed) (hw : h.WellFormed atoms.size)
    (ha : h.IsFinite atoms a) (hb : h.IsFinite atoms b) : ∃ r, h.equal? a b = some r ∧
      (r = true ↔ h.valuation atoms .var a = h.valuation atoms .var b) := by
  obtain ⟨-, r, -, hr, hiff⟩ := exists_endsAfter_compare hat hw ha hb
  exact ⟨r, hr, hiff⟩

theorem equal?_eq_true_iff (hat : atoms.WellFormed) (hw : h.WellFormed atoms.size)
    (ha : h.IsFinite atoms a) (hb : h.IsFinite atoms b) : h.equal? a b = some true ↔
      h.valuation atoms .var a = h.valuation atoms .var b := by
  obtain ⟨r, hr, hiff⟩ := exists_equal? hat hw ha hb
  rw [hr, Option.some.injEq]
  exact hiff

/-- The answers are the same if the questions are the same. -/
theorem equal?_congr (hat : atoms.WellFormed) (hw : h.WellFormed atoms.size) {a' b' : Cell}
    (ha : h.IsFinite atoms a) (hb : h.IsFinite atoms b) (ha' : h.IsFinite atoms a')
    (hb' : h.IsFinite atoms b')
    (hiff : h.valuation atoms .var a = h.valuation atoms .var b ↔
      h.valuation atoms .var a' = h.valuation atoms .var b') : h.equal? a b = h.equal? a' b' := by
  obtain ⟨r, hr, hr'⟩ := exists_equal? hat hw ha hb
  obtain ⟨q, hq, hq'⟩ := exists_equal? hat hw ha' hb'
  rw [hr, hq, Option.some.injEq, Bool.eq_iff_iff, hr', hq', hiff]

end Heap

end PrologTerms
