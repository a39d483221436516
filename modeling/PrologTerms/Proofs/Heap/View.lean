import PrologTerms.Proofs.Heap.WellFormed

/-!
# Looking at the terms of a well-formed heap

On a well-formed heap every look at a term succeeds: chains of variables come to an end, compound
terms have a functor and all their arguments, and what is found is made of terms again.
-/

namespace PrologTerms

/-- The parts of a form are where the form says they are. -/
def View.Fits (h : Heap) (atoms : Nat) : View → Prop
  | .var i => h.get? i = some (.ref i)
  | .compound i f args => h.get? i = some (.con f) ∧ 0 < f.arity ∧ args.length = f.arity ∧
      (∀ k, k < f.arity → args[k]? = h.get? (i + 1 + k)) ∧ ∀ c ∈ args, h.IsTerm atoms c
  | .atom f => f.arity = 0 ∧ f.name < atoms
  | .int n => fitsWord n = true
  | .big _ => True
  | .global _ => True

/-- The arguments of a form; only compound terms have any. -/
def View.args : View → List Cell
  | .compound _ _ args => args
  | _ => []

/-- Is the form that of an unbound variable? -/
def View.isVar : View → Bool
  | .var _ => true
  | _ => false

/-- Is the form that of a list cell? -/
def View.isPair : View → Bool
  | .compound _ f _ => f == .dot
  | _ => false

/-- Is the form that of the empty list? -/
def View.isNil : View → Bool
  | .atom f => f == .atom Atom.nil
  | _ => false

/-- The outermost symbol of a form. Forms that are no variables can be made equal only if they have
the same. -/
def View.head : View → Cell
  | .compound _ f _ => .con f
  | v => v.cell

namespace Heap

variable {h : Heap} {atoms : Nat}

/-- Following a variable of a well-formed heap comes to an end within as many steps as there are
slots up to it. -/
theorem exists_derefWithin (hw : h.WellFormed atoms) {n : Nat} {c : Cell} (hc : h.IsTerm atoms c)
    (hpos : 0 < n) (hn : ∀ i : Nat, c = .ref i → i + 1 < n) : ∃ d, h.derefWithin n c = some d ∧
      h.IsTerm atoms d ∧ ∀ i, d = .ref i → h.get? i = some (.ref i) := by
  induction n generalizing c with
  | zero => omega
  | succ n ih =>
    cases c with
    | ref i =>
      have hin := hn i rfl
      obtain ⟨c, hg⟩ := Arena.exists_get?_of_lt hc.1
      have ht : h.IsTerm atoms c := hw.term i c hg hc.2
      simp only [derefWithin, hg]
      by_cases e : c = .ref i
      · rw [if_pos e]
        refine ⟨c, rfl, ht, fun j hj => ?_⟩
        obtain rfl : j = i := Cell.ref.inj (hj ▸ e)
        rw [hg, hj]
      · -- the variable is bound, to an older one if to a variable
        rw [if_neg e]
        apply ih ht (by omega)
        intro j hj
        have hji : j ≤ i := hw.older i j (hj ▸ hg)
        have hne : j ≠ i := fun e' => e (by rw [hj, e'])
        omega
    | str i => exact ⟨_, rfl, hc, by simp⟩
    | con f => exact ⟨_, rfl, hc, by simp⟩
    | int n => exact ⟨_, rfl, hc, by simp⟩
    | big n => exact ⟨_, rfl, hc, by simp⟩
    | global n => exact ⟨_, rfl, hc, by simp⟩

/-- Following variables always leads to a term, and to a variable only if it is unbound. -/
theorem exists_deref? (hw : h.WellFormed atoms) {c : Cell} (hc : h.IsTerm atoms c) :
    ∃ d, h.deref? c = some d ∧ h.IsTerm atoms d ∧ ∀ i, d = .ref i → h.get? i = some (.ref i) := by
  refine exists_derefWithin hw hc (by omega) fun i e => ?_
  subst e
  have := hc.1
  omega

/-- A head has its functor and all of its arguments. -/
theorem exists_compound? (hw : h.WellFormed atoms) {i : Nat} (hi : h.IsHead i) :
    ∃ f args, h.compound? i = some (f, args) ∧ (View.compound i f args).Fits h atoms := by
  obtain ⟨f, hf, hpos⟩ := hi
  obtain ⟨-, hlt, hargs⟩ := hw.head i f hf hpos
  have hlen : (h.slice (i + 1) f.arity).length = f.arity := Arena.length_slice (by omega)
  have hat : ∀ k, k < f.arity → (h.slice (i + 1) f.arity)[k]? = h.get? (i + 1 + k) := by
    intro k hk
    rw [Arena.getElem?_slice, if_pos hk]
  refine ⟨f, h.slice (i + 1) f.arity, by simp [compound?, hf, hlt], hf, hpos, hlen, hat, ?_⟩
  intro c hc
  obtain ⟨k, hk, rfl⟩ := List.mem_iff_getElem.1 hc
  rw [hlen] at hk
  have hg := hat k hk
  rw [List.getElem?_eq_getElem (by omega)] at hg
  exact hw.term _ _ hg.symm (hargs _ (by omega) (by omega))

/-- Every term has a form, with all its parts in their places. -/
theorem exists_view? (hw : h.WellFormed atoms) {c : Cell} (hc : h.IsTerm atoms c) :
    ∃ v, h.view? c = some v ∧ h.deref? c = some v.cell ∧ v.Fits h atoms := by
  obtain ⟨d, hd, ht, hr⟩ := exists_deref? hw hc
  cases d with
  | ref i => exact ⟨.var i, by simp [view?, hd], hd, hr i rfl⟩
  | str i =>
    obtain ⟨f, args, hcomp, hfits⟩ := exists_compound? hw ht
    exact ⟨.compound i f args, by simp [view?, hd, hcomp], hd, hfits⟩
  | con f => exact ⟨.atom f, by simp [view?, hd], hd, ht⟩
  | int n => exact ⟨.int n, by simp [view?, hd], hd, ht⟩
  | big n => exact ⟨.big n, by simp [view?, hd], hd, trivial⟩
  | global n => exact ⟨.global n, by simp [view?, hd], hd, trivial⟩

theorem view?_spec (hw : h.WellFormed atoms) {c : Cell} (hc : h.IsTerm atoms c) {v : View}
    (hv : h.view? c = some v) : h.deref? c = some v.cell ∧ v.Fits h atoms := by
  obtain ⟨v', hv', hd, hf⟩ := exists_view? hw hc
  rw [hv, Option.some.injEq] at hv'
  exact hv' ▸ ⟨hd, hf⟩

end Heap

namespace View

variable {h : Heap} {atoms : Nat} {v : View}

theorem Fits.isTerm_args (hv : v.Fits h atoms) : ∀ c ∈ v.args, h.IsTerm atoms c := by
  cases v with
  | compound i f args => exact hv.2.2.2.2
  | _ => simp [args]

/-- The cell of a form that fits is a term. -/
theorem Fits.isTerm_cell (hv : v.Fits h atoms) : h.IsTerm atoms v.cell := by
  cases v with
  | var i =>
    have hg : h.get? i = some (.ref i) := hv
    refine ⟨Arena.lt_size_of_get? hg, ?_⟩
    rintro ⟨f, hf, -⟩
    rw [hg] at hf
    cases Option.some.inj hf
  | compound i f args => exact ⟨f, hv.1, hv.2.1⟩
  | atom f => exact hv
  | int n => exact hv
  | big n => trivial
  | global n => trivial

/-- The cell of a term says all about its form. -/
theorem Fits.eq_of_cell_eq {v' : View} (hv : v.Fits h atoms) (hv' : v'.Fits h atoms)
    (e : v.cell = v'.cell) : v = v' := by
  cases v <;> cases v' <;> simp only [View.cell, reduceCtorEq] at e <;>
    try (injection e with e; subst e; rfl)
  next i f as j g bs =>
    injection e with e
    subst e
    obtain ⟨hf, -, hla, hga, -⟩ := hv
    obtain ⟨hg, -, hlb, hgb, -⟩ := hv'
    rw [hf, Option.some.injEq, Cell.con.injEq] at hg
    subst hg
    congr 1
    apply List.ext_getElem?
    intro k
    by_cases hk : k < f.arity
    · rw [hga k hk, hgb k hk]
    · rw [List.getElem?_eq_none (by omega), List.getElem?_eq_none (by omega)]

theorem isVar_eq_false (hv : ∀ i, v = .var i → False) : v.isVar = false := by
  cases v with
  | var i => exact absurd rfl (hv i)
  | _ => rfl

theorem eq_var_of_cell {i : Nat} (h : v.cell = .ref i) : v = .var i := by
  cases v <;> cases h
  rfl

/-- The name of a compound term or an atom has been assigned. -/
theorem Fits.name_lt (hv : v.Fits h atoms)
    (hw : h.WellFormed atoms) {f : Functor} (hf : v.head = .con f) : f.name < atoms := by
  cases v with
  | compound i g args =>
    cases hf
    exact (hw.head i f hv.1 hv.2.1).1
  | atom g =>
    cases hf
    exact hv.2
  | _ => cases hf

/-- Forms that are not the same have different symbols, unless both are compound. -/
theorem Fits.head_ne {va vb : View} (ha : va.Fits h atoms)
    (hb : vb.Fits h atoms) (hne : va.cell ≠ vb.cell)
    (hstr : ∀ i f as j g bs, va = .compound i f as → vb = .compound j g bs → False) :
    va.head ≠ vb.head := by
  cases va with
  | compound i f as =>
    cases vb with
    | compound j g bs => exact absurd rfl (hstr _ _ _ _ _ _ rfl)
    | atom g =>
      intro e
      cases e
      have := ha.2.1
      have := hb.1
      omega
    | _ => simp [head, cell]
  | atom f =>
    cases vb with
    | compound j g bs =>
      intro e
      cases e
      have := hb.2.1
      have := ha.1
      omega
    | _ => exact hne
  | _ =>
    cases vb with
    | compound j g bs => simp [head, cell]
    | _ => exact hne

end View

namespace Heap

variable {h : Heap} {atoms : Nat}

/-- A compound term with an argument has a head. -/
theorem isHead_of_view? {i : Nat} {f : Functor} {args : List Cell} {c : Cell}
    (hv : h.view? (.str i) = some (.compound i f args)) (hc : c ∈ args) : h.IsHead i := by
  simp only [view?, deref?, derefWithin, compound?] at hv
  cases hg : h.get? i with
  | none => simp [hg] at hv
  | some d =>
    cases d with
    | con g =>
      simp only [hg] at hv
      split at hv
      · simp only [Option.map_some, Option.some.injEq, View.compound.injEq, true_and] at hv
        obtain ⟨rfl, rfl⟩ := hv
        refine ⟨g, hg, Nat.pos_of_ne_zero fun hz => ?_⟩
        simp [hz, Arena.slice] at hc
      · cases hv
    | _ => simp [hg] at hv

/-- Asking for the functor of a term always has an answer. -/
theorem exists_functor? (hw : h.WellFormed atoms) {c : Cell} (hc : h.IsTerm atoms c) :
    ∃ f, h.functor? c = some f := by
  obtain ⟨d, hd, ht, -⟩ := exists_deref? hw hc
  cases d with
  | str i =>
    obtain ⟨f, hf, -⟩ := ht
    exact ⟨some f, by simp [functor?, hd, hf]⟩
  | con f => exact ⟨some f, by simp [functor?, hd]⟩
  | _ => exact ⟨none, by simp [functor?, hd]⟩

/-- Asking for an argument has an answer if the term has an argument of this number. -/
theorem exists_arg? (hw : h.WellFormed atoms) {c : Cell} (hc : h.IsTerm atoms c) {i n : Nat}
    {f : Functor} (hd : h.deref? c = some (.str i)) (hf : h.functor? c = some (some f))
    (hn : n < f.arity) : ∃ d, h.arg? c n = some d ∧ h.IsTerm atoms d := by
  obtain ⟨e, he, ht, -⟩ := exists_deref? hw hc
  rw [hd, Option.some.injEq] at he
  subst he
  obtain ⟨g, args, hcomp, hg, hpos, hlen, hat, hargs⟩ := exists_compound? hw ht
  obtain rfl : f = g := by simpa [functor?, hd, hg, eq_comm] using hf
  have hk : n < args.length := by omega
  refine ⟨args[n], ?_, hargs _ (List.getElem_mem hk)⟩
  rw [← List.getElem?_eq_getElem hk, hat n hn]
  simp [arg?, hd, hg, hn]

theorem isTerm_of_arg? (hw : h.WellFormed atoms) {c d : Cell} (hc : h.IsTerm atoms c) {n : Nat}
    (ha : h.arg? c n = some d) : h.IsTerm atoms d := by
  obtain ⟨e, he, ht, -⟩ := exists_deref? hw hc
  cases e with
  | str i =>
    obtain ⟨f, hf, hpos⟩ := ht
    simp only [arg?, he, hf] at ha
    split at ha
    · next hn =>
      obtain ⟨-, hlt, hargs⟩ := hw.head i f hf hpos
      exact hw.term _ _ ha (hargs _ (by omega) (by omega))
    · cases ha
  | _ => simp [arg?, he] at ha

/-! ## Looking at the cells of forms -/

variable {c : Cell} {v : View}

/-- The cell of a form leads nowhere else. -/
theorem deref?_cell (hv : v.Fits h atoms) : h.deref? v.cell = some v.cell := by
  cases v with
  | var i =>
    have hi : h.get? i = some (.ref i) := hv
    simp only [View.cell, deref?, derefWithin, hi, if_true]
  | _ => rfl

theorem compound?_of_view? {i : Address} {f : Functor} {args : List Cell}
    (hv : h.view? c = some (.compound i f args)) :
    h.deref? c = some (.str i) ∧ h.compound? i = some (f, args) := by
  unfold view? at hv
  split at hv <;> try cases hv
  next j hd =>
    obtain ⟨p, hp, e⟩ := Option.map_eq_some_iff.1 hv
    cases e
    exact ⟨hd, hp⟩

/-- It can be told from its cell whether a form is that of a list cell, or that of the empty list. -/
theorem isPair?_cell (hv : v.Fits h atoms) : h.isPair? v.cell = some v.isPair := by
  have hd := deref?_cell hv
  cases v with
  | compound i f args =>
    have hi : h.get? i = some (.con f) := hv.1
    have hd : h.deref? (.str i) = some (.str i) := hd
    simp [isPair?, isCompound?, functor?, View.cell, hd, hi, View.isPair]
  | _ =>
    simp only [View.cell] at hd
    simp [isPair?, isCompound?, functor?, View.cell, hd, View.isPair]

theorem isNil?_cell (hv : v.Fits h atoms) : h.isNil? v.cell = some v.isNil := by
  rw [isNil?, isAtom?, deref?_cell hv]
  cases v with
  | atom f =>
    show some (Cell.con f == .con (.atom Atom.nil)) = some (f == .atom Atom.nil)
    rw [Option.some.injEq, Bool.eq_iff_iff, beq_iff_eq, beq_iff_eq, Cell.con.injEq]
  | _ => rfl

/-- The arguments of a compound term, one by one. -/
theorem arg?_cell {i : Address} {f : Functor} {args : List Cell}
    (hv : (View.compound i f args).Fits h atoms) (n : Nat) : h.arg? (.str i) n = args[n]? := by
  obtain ⟨hi, -, hlen, hat, -⟩ := hv
  have hd : h.deref? (.str i) = some (.str i) := rfl
  simp only [arg?, hd, hi]
  split
  · next hn => exact (hat n hn).symm
  · next hn => exact (List.getElem?_eq_none (by omega)).symm

end Heap

end PrologTerms
