import PrologTerms.Proofs.Reading.Build
import PrologTerms.Proofs.Reading.Names
import PrologTerms.Proofs.Writing.Variables

/-!
# The same expressions on different heaps

Two drafts that are extended by the same expressions grow in the same way, whatever was on their heaps,
among their atoms and their names before: new variables are at the same distances behind the old slots,
and have the same names, and the trees of new terms are the same up to these distances.
-/

namespace PrologTerms

/-- The address that is as far behind `n'` as the given one is behind `n`. -/
def carry (n n' : Nat) (i : Address) : Address := n' + (i - n)

theorem carry_add (n n' k : Nat) : carry n n' (n + k) = n' + k := by
  rw [carry, Nat.add_sub_cancel_left]

namespace Draft

/-- Two drafts that have been extended in the same way since their heaps had the sizes `n` and `n'`. -/
structure Twins (n n' : Nat) (d d' : Draft) : Prop where
  /-- As many slots were added. -/
  size : ∃ k, d.heap.size = n + k ∧ d'.heap.size = n' + k
  /-- New variables are at the same distances. -/
  unbound : ∀ k, d.heap.get? (n + k) = some (.ref (n + k)) ↔
    d'.heap.get? (n' + k) = some (.ref (n' + k))
  /-- The names in the clause stand for variables at the same distances. -/
  scope : ∀ x, d.scope.lookup x = none ∧ d'.scope.lookup x = none ∨
    ∃ k, d.scope.lookup x = some (.ref (n + k)) ∧ d'.scope.lookup x = some (.ref (n' + k)) ∧
      d.heap.get? (n + k) = some (.ref (n + k))
  /-- Variables at the same distances have the same names. -/
  names : ∀ k, d'.names.lookup (n' + k) = d.names.lookup (n + k)

/-- Terms of two drafts that are the same but for the places of new variables. -/
structure TwinTerms (n n' : Nat) (d d' : Draft) (c c' : Cell) : Prop where
  /-- Variables are at the same distances. -/
  ref : ∀ k, c = .ref (n + k) ↔ c' = .ref (n' + k)
  /-- So are the variables in the trees. -/
  tree : ∃ t, d.heap.resolve? d.atoms c = some t ∧
    (∀ i ∈ t.vars, n ≤ i ∧ d.heap.get? i = some (.ref i)) ∧
    d'.heap.resolve? d'.atoms c' = some (t.rename (carry n n'))

variable {n n' : Nat} {d d' e e' : Draft} {c c' : Cell}

/-- Extending the heaps by slots that correspond to each other. -/
theorem Twins.grow (h : Twins n n' d d') (hg : d.heap.Grows e.heap) (hs : e.scope = d.scope)
    (hn : e.names = d.names) (hs' : e'.scope = d'.scope) (hn' : e'.names = d'.names)
    (hsize : ∃ k, e.heap.size = n + k ∧ e'.heap.size = n' + k)
    (hunbound : ∀ k, e.heap.get? (n + k) = some (.ref (n + k)) ↔
      e'.heap.get? (n' + k) = some (.ref (n' + k))) : Twins n n' e e' := by
  refine ⟨hsize, hunbound, fun x => ?_, ?_⟩
  · rw [hs, hs']
    rcases h.scope x with hx | ⟨k, hk, hk', hvar⟩
    · exact .inl hx
    · exact .inr ⟨k, hk, hk', hg.get?_eq_some hvar⟩
  · rw [hn, hn']
    exact h.names

theorem TwinTerms.grow (h : TwinTerms n n' d d' c c') (hd : d.Sound) (hd' : d'.Sound)
    (hc : d.heap.IsTerm d.atoms.size c) (hc' : d'.heap.IsTerm d'.atoms.size c') (hg : d.Grows e)
    (hg' : d'.Grows e') : TwinTerms n n' e e' c c' := by
  obtain ⟨t, ht, hvars, ht'⟩ := h.tree
  refine ⟨h.ref, t, hg.heap.resolve? hg.atoms hd.heap hc ht, fun i hi => ?_,
    hg'.heap.resolve? hg'.atoms hd'.heap hc' ht'⟩
  exact ⟨(hvars i hi).1, hg.heap.get?_eq_some (hvars i hi).2⟩

theorem forall₂_twinTerms_grow {cs cs' : List Cell} (h : List.Forall₂ (TwinTerms n n' d d') cs cs')
    (hd : d.Sound) (hd' : d'.Sound) (hc : ∀ c ∈ cs, d.heap.IsTerm d.atoms.size c)
    (hc' : ∀ c ∈ cs', d'.heap.IsTerm d'.atoms.size c) (hg : d.Grows e) (hg' : d'.Grows e') :
    List.Forall₂ (TwinTerms n n' e e') cs cs' := by
  induction h with
  | nil => exact .nil
  | @cons c c' cs cs' hcc _ ih =>
    refine .cons (hcc.grow hd hd' (hc c List.mem_cons_self) (hc' c' List.mem_cons_self) hg hg') (ih ?_ ?_)
    · exact fun c hmem => hc c (List.mem_cons_of_mem _ hmem)
    · exact fun c hmem => hc' c (List.mem_cons_of_mem _ hmem)

theorem exists_trees {cs cs' : List Cell} (h : List.Forall₂ (TwinTerms n n' d d') cs cs') :
    ∃ ts, List.Forall₂ (fun c t => d.heap.resolve? d.atoms c = some t) cs ts ∧
      (∀ i ∈ ts.flatMap Tree.vars, n ≤ i ∧ d.heap.get? i = some (.ref i)) ∧
      List.Forall₂ (fun c t => d'.heap.resolve? d'.atoms c = some t) cs'
        (ts.map (Tree.rename (carry n n'))) := by
  induction h with
  | nil => exact ⟨[], .nil, by simp, .nil⟩
  | cons hcc _ ih =>
    obtain ⟨t, ht, hvars, ht'⟩ := hcc.tree
    obtain ⟨ts, hts, hvars', hts'⟩ := ih
    refine ⟨t :: ts, .cons ht hts, fun i hi => ?_, .cons ht' hts'⟩
    rw [List.flatMap_cons, List.mem_append] at hi
    exact hi.elim (hvars i) (hvars' i)

/-! ## New slots -/

/-- A new variable in both drafts. -/
theorem Twins.newVar (h : Twins n n' d d') :
    (∃ k, d.heap.newVar.2.size = n + k ∧ d'.heap.newVar.2.size = n' + k) ∧
      ∀ k, d.heap.newVar.2.get? (n + k) = some (.ref (n + k)) ↔
        d'.heap.newVar.2.get? (n' + k) = some (.ref (n' + k)) := by
  obtain ⟨m, hm, hm'⟩ := h.size
  refine ⟨⟨m + 1, ?_, ?_⟩, fun k => ?_⟩
  · rw [Heap.newVar, Arena.size_push, hm, Nat.add_assoc]
  · rw [Heap.newVar, Arena.size_push, hm', Nat.add_assoc]
  · rw [Heap.newVar, Heap.newVar, Arena.get?_push, Arena.get?_push, hm, hm']
    by_cases hk : k = m
    · subst hk
      simp
    · rw [if_neg (by omega), if_neg (by omega)]
      exact h.unbound k

/-- A variable at the same distance in both drafts. -/
theorem twinTerms_ref {k : Nat} (hk : d.heap.get? (n + k) = some (.ref (n + k)))
    (hk' : d'.heap.get? (n' + k) = some (.ref (n' + k))) :
    TwinTerms n n' d d' (.ref (n + k)) (.ref (n' + k)) := by
  refine ⟨fun j => ?_, .var (n + k), Heap.resolve?_ref _ hk, fun i hi => ?_, ?_⟩
  · rw [Cell.ref.injEq, Cell.ref.injEq]
    exact (Nat.add_left_cancel_iff).trans (Nat.add_left_cancel_iff).symm
  · obtain rfl : i = n + k := List.mem_singleton.1 hi
    exact ⟨Nat.le_add_right n k, hk⟩
  · rw [Heap.resolve?_ref _ hk']
    exact congrArg (some ∘ Tree.var) (carry_add n n' k).symm

theorem Twins.twinTerms_newVar (h : Twins n n' d d') (hd : e.heap = d.heap.newVar.2)
    (hd' : e'.heap = d'.heap.newVar.2) :
    TwinTerms n n' e e' (.ref d.heap.size) (.ref d'.heap.size) := by
  obtain ⟨m, hm, hm'⟩ := h.size
  have hget := d.get?_newVar
  have hget' := d'.get?_newVar
  rw [← hd, hm] at hget
  rw [← hd', hm'] at hget'
  rw [hm, hm']
  exact twinTerms_ref hget hget'

/-- A new compound term in both drafts. -/
theorem Twins.newCompound (h : Twins n n' d d') {f f' : Functor} {as as' : List Cell}
    (has : List.Forall₂ (fun c c' => ∀ k, c = .ref (n + k) ↔ c' = .ref (n' + k)) as as') :
    Twins n n' (d.newCompound f as).2 (d'.newCompound f' as').2 := by
  obtain ⟨m, hm, hm'⟩ := h.size
  have hlen := has.length_eq
  have hsize := Heap.size_newCompound d.heap f as
  have hsize' := Heap.size_newCompound d'.heap f' as'
  refine h.grow (Heap.grows_newCompound _ _ _) rfl rfl rfl rfl ⟨m + 1 + as.length, ?_, ?_⟩ fun k => ?_
  · show (d.heap.newCompound f as).2.size = _
    omega
  · show (d'.heap.newCompound f' as').2.size = _
    omega
  · show (d.heap.newCompound f as).2.get? (n + k) = _ ↔ (d'.heap.newCompound f' as').2.get? (n' + k) = _
    rw [Heap.get?_newCompound, Heap.get?_newCompound, hm, hm']
    rcases Nat.lt_trichotomy k m with hk | rfl | hk
    · rw [if_pos (by omega), if_pos (by omega)]
      exact h.unbound k
    · simp
    · -- a slot behind the head holds an argument, which need not be a variable
      rw [if_neg (by omega), if_neg (by omega), if_neg (by omega), if_neg (by omega)]
      rw [show n + k - (n + m + 1) = k - (m + 1) by omega,
        show n' + k - (n' + m + 1) = k - (m + 1) by omega]
      by_cases hj : k - (m + 1) < as.length
      · have hj' : k - (m + 1) < as'.length := hlen ▸ hj
        rw [List.getElem?_eq_getElem hj, List.getElem?_eq_getElem hj', Option.some.injEq,
          Option.some.injEq]
        exact (List.forall₂_iff_get.1 has).2 _ hj hj' k
      · rw [List.getElem?_eq_none (by omega), List.getElem?_eq_none (by omega)]
        simp

/-! ## Expressions -/

theorem lookup_cons_of_ne {α β : Type} [BEq α] [LawfulBEq α] {x y : α} (hne : y ≠ x) (b : β)
    (ps : List (α × β)) : ((x, b) :: ps).lookup y = ps.lookup y := by
  rw [List.lookup_cons, beq_eq_false_iff_ne.2 hne]

/-- A new variable with a name in both drafts. -/
theorem Twins.named (h : Twins n n' d d') (x : String) : Twins n n' (d.named x) (d'.named x) := by
  obtain ⟨hsize, hunbound⟩ := h.newVar
  have hgrow : d.heap.Grows (d.named x).heap := Heap.grows_push _ _
  obtain ⟨m, hm, hm'⟩ := h.size
  refine ⟨hsize, hunbound, fun y => ?_, fun k => ?_⟩
  · show List.lookup y ((x, _) :: d.scope) = none ∧ List.lookup y ((x, _) :: d'.scope) = none ∨
      ∃ k, List.lookup y ((x, _) :: d.scope) = _ ∧ List.lookup y ((x, _) :: d'.scope) = _ ∧ _
    by_cases hy : y = x
    · subst hy
      rw [List.lookup_cons_self, List.lookup_cons_self, hm, hm']
      exact .inr ⟨m, rfl, rfl, hm ▸ d.get?_newVar⟩
    · rw [lookup_cons_of_ne hy, lookup_cons_of_ne hy]
      rcases h.scope y with hy | ⟨k, hk, hk', hvar⟩
      · exact .inl hy
      · exact .inr ⟨k, hk, hk', hgrow.get?_eq_some hvar⟩
  · show List.lookup (n' + k) ((d'.heap.size, x) :: d'.names) =
      List.lookup (n + k) ((d.heap.size, x) :: d.names)
    rw [hm, hm']
    by_cases hk : k = m
    · subst hk
      rw [List.lookup_cons_self, List.lookup_cons_self]
    · rw [lookup_cons_of_ne (by omega), lookup_cons_of_ne (by omega)]
      exact h.names k

theorem Twins.var (h : Twins n n' d d') (x : String) : Twins n n' (d.var x).2 (d'.var x).2 ∧
    TwinTerms n n' (d.var x).2 (d'.var x).2 (d.var x).1 (d'.var x).1 := by
  unfold Draft.var
  by_cases hx : x = "_"
  · rw [if_pos hx, if_pos hx]
    obtain ⟨hsize, hunbound⟩ := h.newVar
    exact ⟨h.grow (Heap.grows_push _ _) rfl rfl rfl rfl hsize hunbound, h.twinTerms_newVar rfl rfl⟩
  · rw [if_neg hx, if_neg hx]
    rcases h.scope x with ⟨hnone, hnone'⟩ | ⟨k, hk, hk', hvar⟩
    · rw [hnone, hnone']
      exact ⟨h.named x, h.twinTerms_newVar rfl rfl⟩
    · rw [hk, hk']
      exact ⟨h, twinTerms_ref hvar ((h.unbound k).1 hvar)⟩

mutual

/-- An expression is built in the same way in both drafts. -/
theorem Twins.build : ∀ {d d' : Draft} (_ : Twins n n' d d') (_ : d.Sound) (_ : d'.Sound) (e : Expr),
    e.WellFormed → Twins n n' (d.build e).2 (d'.build e).2 ∧
      TwinTerms n n' (d.build e).2 (d'.build e).2 (d.build e).1 (d'.build e).1
  | _, _, h, _, _, .var x, _ => h.var x
  | _, _, h, _, _, .int m, _ => ⟨h, fun k => by simp [Draft.build], .int m, rfl, by simp [Tree.vars], rfl⟩
  | d, d', h, hd, hd', .atom name, _ => by
    have hname := (AtomTable.intern_spec hd.atoms name).2.2.2
    have hname' := (AtomTable.intern_spec hd'.atoms name).2.2.2
    refine ⟨h.grow (.refl _) rfl rfl rfl rfl h.size h.unbound, fun k => ?_, .atom name, ?_,
      by simp [Tree.vars], ?_⟩
    · simp [Draft.build, Cell.atom]
    · exact congrArg (fun s => some (Tree.atom s)) hname
    · exact congrArg (fun s => some (Tree.atom s)) hname'
  | d, d', h, hd, hd', .compound before name behind, he@(.compound _ _ hbefore hbehind) => by
    obtain ⟨as, bs, a, d₁, d₃, hs⟩ := exists_stages hd he
    obtain ⟨as', bs', a', d₁', d₃', hs'⟩ := exists_stages hd' he
    obtain ⟨h₁, hts⟩ := h.buildAll hd hd' before hbefore
    rw [hs.first, hs'.first] at h₁ hts
    have h₂ : Twins n n' (d₁.intern name).2 (d₁'.intern name).2 :=
      h₁.grow (.refl _) rfl rfl rfl rfl h₁.size h₁.unbound
    obtain ⟨h₃, hus⟩ := h₂.buildAll hs.leads₂.1 hs'.leads₂.1 behind hbehind
    rw [hs.third, hs'.third] at h₃ hus
    have hg := (hs.leads₂.trans hs.leads₃).2
    have hg' := (hs'.leads₂.trans hs'.leads₃).2
    -- what comes before the name is on the heap already when the rest is built
    have hts := forall₂_twinTerms_grow hts hs.leads₁.1 hs'.leads₁.1 hs.terms₁ hs'.terms₁ hg hg'
    have hall := List.rel_append hts hus
    obtain ⟨ts, htrees, hvars, htrees'⟩ := exists_trees hall
    rw [hs.build, hs'.build]
    have hgrow : d₃.heap.Grows (d₃.heap.newCompound ⟨a, as.length + bs.length⟩ (as ++ bs)).2 :=
      Heap.grows_newCompound _ _ _
    refine ⟨h₃.newCompound (hall.imp fun _ _ h => h.ref), fun k => by simp [Draft.newCompound,
      Heap.newCompound], _, hs.resolve? htrees, fun i hi => ?_, ?_⟩
    · rw [Tree.vars_compound] at hi
      exact ⟨(hvars i hi).1, hgrow.get?_eq_some (hvars i hi).2⟩
    · rw [hs'.resolve? htrees', Tree.rename_compound]

theorem Twins.buildAll : ∀ {d d' : Draft} (_ : Twins n n' d d') (_ : d.Sound) (_ : d'.Sound)
    (es : List Expr), (∀ e ∈ es, e.WellFormed) → Twins n n' (d.buildAll es).2 (d'.buildAll es).2 ∧
      List.Forall₂ (TwinTerms n n' (d.buildAll es).2 (d'.buildAll es).2) (d.buildAll es).1
        (d'.buildAll es).1
  | _, _, h, _, _, [], _ => ⟨h, .nil⟩
  | d, d', h, hd, hd', e :: es, hes => by
    have he := hes e List.mem_cons_self
    have hes' : ∀ e' ∈ es, e'.WellFormed := fun e' he' => hes e' (List.mem_cons_of_mem e he')
    obtain ⟨hl, hc⟩ := sound_build hd e he
    obtain ⟨hl', hc'⟩ := sound_build hd' e he
    obtain ⟨h₁, ht⟩ := h.build hd hd' e he
    obtain ⟨h₂, hts⟩ := h₁.buildAll hl.1 hl'.1 es hes'
    obtain ⟨hm, -⟩ := sound_buildAll hl.1 es hes'
    obtain ⟨hm', -⟩ := sound_buildAll hl'.1 es hes'
    exact ⟨h₂, .cons (ht.grow hl.1 hl'.1 hc hc' hm.2 hm'.2) hts⟩

end

/-! ## Clauses -/

/-- Behind everything that two drafts have, the same can be added to them. -/
theorem twins_of_below (hd : d.NamesBelow) (hd' : d'.NamesBelow) (hs : d.scope = [])
    (hs' : d'.scope = []) : Twins d.heap.size d'.heap.size d d' := by
  have hbehind : ∀ (h : Heap) k, h.get? (h.size + k) = none := by
    intro h k
    cases e : h.get? (h.size + k) with
    | none => rfl
    | some c => exact absurd (Arena.lt_size_of_get? e) (by omega)
  refine ⟨⟨0, rfl, rfl⟩, fun k => ?_, fun x => .inl ?_, fun k => ?_⟩
  · rw [hbehind, hbehind]
    simp
  · simp [hs, hs']
  · rw [hd.lookup_eq_none (Nat.le_add_right _ k), hd'.lookup_eq_none (Nat.le_add_right _ k)]

/-- Every clause has variables of its own. -/
theorem Twins.unscoped (h : Twins n n' d d') :
    Twins n n' { d with scope := [] } { d' with scope := [] } :=
  ⟨h.size, h.unbound, fun _ => .inl ⟨rfl, rfl⟩, h.names⟩

/-- Several clauses are built in the same way in both drafts. -/
theorem Twins.addClauses (h : Twins n n' d d') (hd : d.Sound) (hd' : d'.Sound) {es : List Expr}
    (hes : ∀ e ∈ es, e.WellFormed) : ∃ cs cs' f f',
      d.addClauses (es.map .ok) = (cs.map .ok, f) ∧ d'.addClauses (es.map .ok) = (cs'.map .ok, f') ∧
      Twins n n' f f' ∧ List.Forall₂ (TwinTerms n n' f f') cs cs' := by
  induction es generalizing d d' with
  | nil => exact ⟨[], [], d, d', rfl, rfl, h, .nil⟩
  | cons e es ih =>
    have he := hes e List.mem_cons_self
    have hes' : ∀ e ∈ es, e.WellFormed := fun e' he' => hes e' (List.mem_cons_of_mem e he')
    have hvalues := ReadResult.valueWellFormed_of_mem_map_ok hes'
    have hd₀ : Draft.Sound { d with scope := [] } := ⟨hd.heap, hd.atoms, hd.names, by simp⟩
    have hd₀' : Draft.Sound { d' with scope := [] } := ⟨hd'.heap, hd'.atoms, hd'.names, by simp⟩
    obtain ⟨hl, hc⟩ := sound_build hd₀ e he
    obtain ⟨hl', hc'⟩ := sound_build hd₀' e he
    obtain ⟨h₁, ht⟩ := h.unscoped.build hd₀ hd₀' e he
    obtain ⟨hm, -⟩ := sound_addClauses hl.1 _ hvalues
    obtain ⟨hm', -⟩ := sound_addClauses hl'.1 _ hvalues
    obtain ⟨cs, cs', f, f', hadd, hadd', h₂, hts⟩ := ih h₁ hl.1 hl'.1 hes'
    rw [hadd] at hm
    rw [hadd'] at hm'
    -- the clauses behind it only add to both drafts, so that the first term stays what it is
    refine ⟨_ :: cs, _ :: cs', f, f', ?_, ?_, h₂, .cons (ht.grow hl.1 hl'.1 hc hc' hm.2 hm'.2) hts⟩
    · rw [List.map_cons, Draft.addClauses, Draft.addClause]
      dsimp only
      rw [hadd]
      rfl
    · rw [List.map_cons, Draft.addClauses, Draft.addClause]
      dsimp only
      rw [hadd']
      rfl

end Draft

end PrologTerms
