import PrologTerms.Heap.Trail
import PrologTerms.Reading.Operand

/-!
# Well-formed heaps

A slot of a heap either is the head of a compound term, whose arguments follow, or holds a term. In a
well-formed heap a bound variable leads to an older slot, and a compound term leads to a head. The
invariant is kept by every allocation, and by binding and releasing variables; heads are never
overwritten, so a term handed out once stays a term.
-/

namespace PrologTerms.Heap

/-- The slot is the head of a compound term: it holds a functor with arguments. -/
def IsHead (h : Heap) (i : Nat) : Prop := ∃ f : Functor, h.get? i = some (.con f) ∧ 0 < f.arity

/-- The cell is a term of the heap, where atoms have numbers below `atoms`. -/
def IsTerm (h : Heap) (atoms : Nat) : Cell → Prop
  | .ref (i : Nat) => i < h.size ∧ ¬ h.IsHead i
  | .str i => h.IsHead i
  | .con f => f.arity = 0 ∧ f.name < atoms
  | .int n => fitsWord n = true
  | .big _ => True
  | .global _ => True

/-- What the slots of a heap look like at any time. -/
structure WellFormed (h : Heap) (atoms : Nat) : Prop where
  /-- Behind a head there is a slot for each argument, none of them a head. -/
  head : ∀ i f, h.get? i = some (.con f) → 0 < f.arity →
    f.name < atoms ∧ i + f.arity < h.size ∧ ∀ k : Nat, i < k → k ≤ i + f.arity → ¬ h.IsHead k
  /-- Every other slot holds a term. -/
  term : ∀ i c, h.get? i = some c → ¬ h.IsHead i → h.IsTerm atoms c
  /-- A variable is bound to an older one, or is its own address. -/
  older : ∀ i j : Nat, h.get? i = some (.ref j) → j ≤ i

/-- The heap `h'` has the slots of `h`, with the same heads among them. -/
structure Keeps (h h' : Heap) : Prop where
  /-- No slot is removed. -/
  size_le : h.size ≤ h'.size
  /-- Heads stay, and no old slot becomes a head. -/
  head : ∀ i f, i < h.size → 0 < f.arity →
    (h'.get? i = some (.con f) ↔ h.get? i = some (.con f))

/-- The heap `h'` has the slots of `h` as they are, and maybe more. -/
structure Grows (h h' : Heap) : Prop where
  /-- No slot is removed. -/
  size_le : h.size ≤ h'.size
  /-- No slot is changed. -/
  get?_eq : ∀ i : Nat, i < h.size → h'.get? i = h.get? i

variable {h h' h'' : Heap} {atoms atoms' : Nat}

/-! ## Heads stay heads -/

theorem Keeps.refl (h : Heap) : h.Keeps h := ⟨Nat.le_refl _, fun _ _ _ _ => Iff.rfl⟩

theorem Keeps.trans (h₁ : h.Keeps h') (h₂ : h'.Keeps h'') : h.Keeps h'' where
  size_le := Nat.le_trans h₁.size_le h₂.size_le
  head i f hi hf := by
    rw [h₂.head i f (Nat.lt_of_lt_of_le hi h₁.size_le) hf, h₁.head i f hi hf]

theorem Grows.refl (h : Heap) : h.Grows h := ⟨Nat.le_refl _, fun _ _ => rfl⟩

theorem Grows.trans (h₁ : h.Grows h') (h₂ : h'.Grows h'') : h.Grows h'' where
  size_le := Nat.le_trans h₁.size_le h₂.size_le
  get?_eq i hi := by rw [h₂.get?_eq i (Nat.lt_of_lt_of_le hi h₁.size_le), h₁.get?_eq i hi]

theorem Grows.keeps (hg : h.Grows h') : h.Keeps h' where
  size_le := hg.size_le
  head i f hi _ := by rw [hg.get?_eq i hi]

theorem IsHead.lt_size {i : Nat} (hi : h.IsHead i) : i < h.size := by
  obtain ⟨f, hf, -⟩ := hi
  exact Arena.lt_size_of_get? hf

theorem Keeps.isHead_iff (hk : h.Keeps h') {i : Nat} (hi : i < h.size) :
    h'.IsHead i ↔ h.IsHead i := by
  constructor
  · rintro ⟨f, hf, hp⟩
    exact ⟨f, (hk.head i f hi hp).1 hf, hp⟩
  · rintro ⟨f, hf, hp⟩
    exact ⟨f, (hk.head i f hi hp).2 hf, hp⟩

/-- A term stays a term, whatever happens to the heap and however many atoms there are. -/
theorem IsTerm.mono {c : Cell} (hc : h.IsTerm atoms c) (hk : h.Keeps h') (ha : atoms ≤ atoms') :
    h'.IsTerm atoms' c := by
  cases c with
  | ref i => exact ⟨Nat.lt_of_lt_of_le hc.1 hk.size_le, fun hi => hc.2 ((hk.isHead_iff hc.1).1 hi)⟩
  | str i => exact (hk.isHead_iff (IsHead.lt_size hc)).2 hc
  | con f => exact ⟨hc.1, Nat.lt_of_lt_of_le hc.2 ha⟩
  | int n => exact hc
  | big n => trivial
  | global n => trivial

/-- A term is not the functor of a compound term. -/
theorem IsTerm.arity_eq_zero {f : Functor} (hc : h.IsTerm atoms (.con f)) : f.arity = 0 := hc.1

theorem WellFormed.mono_atoms (hw : h.WellFormed atoms) (ha : atoms ≤ atoms') :
    h.WellFormed atoms' where
  head i f hi hf :=
    have ⟨h₁, h₂⟩ := hw.head i f hi hf
    ⟨Nat.lt_of_lt_of_le h₁ ha, h₂⟩
  term i c hi hh := (hw.term i c hi hh).mono (.refl h) ha
  older := hw.older

theorem wellFormed_empty : WellFormed {} atoms where
  head i f hi := by simp [Arena.get?] at hi
  term i c hi := by simp [Arena.get?] at hi
  older i j hi := by simp [Arena.get?] at hi

/-! ## Overwriting a slot -/

theorem keeps_set {i : Nat} {c : Cell} (hi : ¬ h.IsHead i) (hc : h.IsTerm atoms c) :
    h.Keeps (h.set i c) where
  size_le := by simp
  head j f hj hf := by
    rw [Arena.get?_set]
    by_cases e : i = j ∧ i < h.size
    · obtain ⟨rfl, -⟩ := e
      rw [if_pos ⟨rfl, hj⟩, Option.some.injEq]
      constructor
      · rintro rfl
        have := hc.arity_eq_zero
        omega
      · intro hg
        exact absurd ⟨f, hg, hf⟩ hi
    · rw [if_neg e]

/-- Overwriting a slot that is no head by a term, and by no younger variable, keeps the heap in
order. -/
theorem WellFormed.set (hw : h.WellFormed atoms) {i : Nat} {c : Cell} (hi : ¬ h.IsHead i)
    (hc : h.IsTerm atoms c) (hle : ∀ j : Nat, c = .ref j → j ≤ i) : Heap.WellFormed (h.set i c) atoms := by
  have hk := keeps_set hi hc
  refine ⟨fun j f hj hf => ?_, fun j d hj hh => ?_, fun j k hj => ?_⟩
  · have hlt : j < h.size := by simpa using Arena.lt_size_of_get? hj
    obtain ⟨h₁, h₂, h₃⟩ := hw.head j f ((hk.head j f hlt hf).1 hj) hf
    refine ⟨h₁, by simpa using h₂, fun k hk₁ hk₂ hh => ?_⟩
    exact h₃ k hk₁ hk₂ ((hk.isHead_iff (by omega)).1 hh)
  · have hlt : j < h.size := by simpa using Arena.lt_size_of_get? hj
    rw [Arena.get?_set] at hj
    split at hj
    · rw [Option.some.injEq] at hj
      exact hj ▸ hc.mono hk (Nat.le_refl _)
    · exact (hw.term j d hj fun hh' => hh ((hk.isHead_iff hlt).2 hh')).mono hk (Nat.le_refl _)
  · rw [Arena.get?_set] at hj
    split at hj
    · next e =>
      rw [Option.some.injEq] at hj
      exact e.1 ▸ hle k hj
    · exact hw.older j k hj

/-- The addresses are those of slots that are no heads. -/
def AreVars (h : Heap) (is : List Address) : Prop := ∀ i ∈ is, i < h.size ∧ ¬ h.IsHead i

theorem AreVars.mono {is : List Address} (hv : h.AreVars is) (hk : h.Keeps h') : h'.AreVars is :=
  fun i hi => ⟨Nat.lt_of_lt_of_le (hv i hi).1 hk.size_le,
    fun hh => (hv i hi).2 ((hk.isHead_iff (hv i hi).1).1 hh)⟩

/-- Releasing variables keeps the heap in order. -/
theorem WellFormed.release {is : List Address} (hw : h.WellFormed atoms) (hv : h.AreVars is) :
    (h.release is).WellFormed atoms ∧ h.Keeps (h.release is) := by
  induction is generalizing h with
  | nil => exact ⟨hw, .refl h⟩
  | cons i is ih =>
    obtain ⟨hi, hh⟩ := hv i List.mem_cons_self
    have hc : h.IsTerm atoms (.ref i) := ⟨hi, hh⟩
    have hk := keeps_set hh hc
    have hw' := hw.set hh hc fun j e => Nat.le_of_eq (Cell.ref.inj e).symm
    have hv' : Heap.AreVars (h.set i (.ref i)) is :=
      fun j hj => (hv.mono hk) j (List.mem_cons_of_mem _ hj)
    obtain ⟨h₁, h₂⟩ := ih hw' hv'
    exact ⟨h₁, hk.trans h₂⟩

@[simp] theorem size_release (h : Heap) (is : List Address) : (h.release is).size = h.size := by
  induction is generalizing h with
  | nil => rfl
  | cons i is ih => exact (ih (h.set i (.ref i))).trans (Arena.size_set h i _)

/-- After variables were released, they are unbound, and all other slots are as before. -/
theorem get?_release (h : Heap) (is : List Address) (j : Nat) :
    (h.release is).get? j = if j ∈ is ∧ j < h.size then some (.ref j) else h.get? j := by
  induction is generalizing h with
  | nil => simp [release]
  | cons i is ih =>
    have e : h.release (i :: is) = Heap.release (h.set i (.ref i)) is := rfl
    rw [e, ih, Arena.get?_set, Arena.size_set]
    by_cases hij : i = j
    · subst hij
      by_cases hj : i < h.size <;> simp [hj]
    · have hji : ¬ j = i := fun e => hij e.symm
      simp [hij, hji]

/-! ## Allocating -/

theorem grows_push (h : Heap) (c : Cell) : h.Grows (h.push c) where
  size_le := by simp
  get?_eq i hi := by rw [Arena.get?_push, if_neg (Nat.ne_of_lt hi)]

theorem isTerm_newVar (hw : h.WellFormed atoms) : h.newVar.2.WellFormed atoms ∧
    h.newVar.2.IsTerm atoms h.newVar.1 ∧ h.Grows h.newVar.2 := by
  have hk : h.Keeps h.newVar.2 := (grows_push h _).keeps
  have hs : h.newVar.2.size = h.size + 1 := by simp [newVar]
  have hg : ∀ i, h.newVar.2.get? i = if i = h.size then some (.ref h.size) else h.get? i :=
    fun i => Arena.get?_push h _ i
  have hnew : ¬ h.newVar.2.IsHead h.size := by
    rintro ⟨f, hf, -⟩
    simp [hg] at hf
  have ht : h.newVar.2.IsTerm atoms (.ref h.size) := ⟨by omega, hnew⟩
  refine ⟨⟨fun i f hi hf => ?_, fun i c hi hh => ?_, fun i j hi => ?_⟩, ht, grows_push h _⟩
  · have hne : i ≠ h.size := by
      rintro rfl
      exact hnew ⟨f, hi, hf⟩
    rw [hg, if_neg hne] at hi
    obtain ⟨h₁, h₂, h₃⟩ := hw.head i f hi hf
    refine ⟨h₁, by omega, fun k hk₁ hk₂ hh => h₃ k hk₁ hk₂ ?_⟩
    exact (hk.isHead_iff (by omega)).1 hh
  · rw [hg] at hi
    split at hi
    · rw [Option.some.injEq] at hi
      exact hi ▸ ht
    · have hlt := Arena.lt_size_of_get? hi
      exact (hw.term i c hi fun hh' => hh ((hk.isHead_iff hlt).2 hh')).mono hk (Nat.le_refl _)
  · rw [hg] at hi
    split at hi
    · next e =>
      cases hi
      exact Nat.le_of_eq e.symm
    · exact hw.older i j hi

/-- The slots after a compound term was made: its functor, its arguments, and the old ones. -/
theorem get?_newCompound (h : Heap) (f : Functor) (args : List Cell) (i : Nat) :
    (h.newCompound f args).2.get? i =
      if i < h.size then h.get? i else if i = h.size then some (.con f)
      else args[i - (h.size + 1)]? := by
  simp only [newCompound, Arena.get?_append, Arena.size_push, Arena.get?_push]
  by_cases h₁ : i < h.size
  · rw [if_pos (by omega), if_neg (by omega), if_pos h₁]
  · by_cases h₂ : i = h.size
    · rw [if_pos (by omega), if_pos h₂, if_neg h₁, if_pos h₂]
    · rw [if_neg (by omega), if_neg h₁, if_neg h₂]

@[simp] theorem size_newCompound (h : Heap) (f : Functor) (args : List Cell) :
    (h.newCompound f args).2.size = h.size + 1 + args.length := by
  simp [newCompound]

theorem grows_newCompound (h : Heap) (f : Functor) (args : List Cell) :
    h.Grows (h.newCompound f args).2 where
  size_le := by simp only [size_newCompound]; omega
  get?_eq i hi := by rw [get?_newCompound, if_pos hi]

/-- Making a compound term from terms keeps the heap in order, and gives a term. -/
theorem isTerm_newCompound (hw : h.WellFormed atoms) (f : Functor) (args : List Cell)
    (hn : f.name < atoms) (hf : f.arity = args.length) (hpos : 0 < f.arity)
    (ha : ∀ c ∈ args, h.IsTerm atoms c) : (h.newCompound f args).2.WellFormed atoms ∧
      (h.newCompound f args).2.IsTerm atoms (h.newCompound f args).1 ∧
      h.Grows (h.newCompound f args).2 := by
  have hgrows := grows_newCompound h f args
  have hk := hgrows.keeps
  have hs := size_newCompound h f args
  have hg := get?_newCompound h f args
  generalize (h.newCompound f args).2 = h' at hgrows hk hs hg ⊢
  have hat : h'.get? h.size = some (.con f) := by simp [hg]
  have ht : h'.IsHead h.size := ⟨f, hat, hpos⟩
  have hbehind : ∀ k, h.size < k → ¬ h'.IsHead k := by
    rintro k hlt ⟨g, hget, hp⟩
    rw [hg, if_neg (by omega), if_neg (by omega)] at hget
    have := (ha _ (List.mem_of_getElem? hget)).arity_eq_zero
    omega
  refine ⟨⟨fun i g hi hp => ?_, fun i c hi hh => ?_, fun i j hi => ?_⟩, ht, hgrows⟩
  · rw [hg] at hi
    split at hi
    · obtain ⟨h₁, h₂, h₃⟩ := hw.head i g hi hp
      refine ⟨h₁, by omega, fun k hk₁ hk₂ hh => h₃ k hk₁ hk₂ ?_⟩
      exact (hk.isHead_iff (by omega)).1 hh
    · split at hi
      · next e =>
        simp only [Option.some.injEq, Cell.con.injEq] at hi
        subst hi
        exact ⟨hn, by omega, fun k hk₁ _ => hbehind k (by omega)⟩
      · have := (ha _ (List.mem_of_getElem? hi)).arity_eq_zero
        omega
  · rw [hg] at hi
    split at hi
    · next hlt =>
      exact (hw.term i c hi fun hh' => hh ((hk.isHead_iff hlt).2 hh')).mono hk (Nat.le_refl _)
    · split at hi
      · next e => exact absurd (e ▸ ht) hh
      · exact (ha c (List.mem_of_getElem? hi)).mono hk (Nat.le_refl _)
  · rw [hg] at hi
    split at hi
    · exact hw.older i j hi
    · split at hi
      · cases Option.some.inj hi
      · have hlt : j < h.size := (ha _ (List.mem_of_getElem? hi)).1
        omega

/-- Making a list of terms keeps the heap in order, and gives a term. -/
theorem isTerm_newList (hw : h.WellFormed atoms) (hd : Atom.dot < atoms) {items : List Cell}
    {tail : Cell} (hi : ∀ c ∈ items, h.IsTerm atoms c) (ht : h.IsTerm atoms tail) :
    (h.newList items tail).2.WellFormed atoms ∧
      (h.newList items tail).2.IsTerm atoms (h.newList items tail).1 ∧
      h.Grows (h.newList items tail).2 := by
  induction items with
  | nil => exact ⟨hw, ht, .refl h⟩
  | cons c items ih =>
    obtain ⟨h₁, h₂, h₃⟩ := ih fun d hd' => hi d (List.mem_cons_of_mem _ hd')
    have hc := (hi c List.mem_cons_self).mono h₃.keeps (Nat.le_refl _)
    obtain ⟨h₄, h₅, h₆⟩ := isTerm_newCompound h₁ .dot [c, (h.newList items tail).1]
      hd rfl (by decide) (by simp [hc, h₂])
    exact ⟨h₄, h₅, h₃.trans h₆⟩

end PrologTerms.Heap
