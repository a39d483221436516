import PrologTerms.Proofs.Atom
import Mathlib.Data.List.Induction
import Std.Data.HashMap.Lemmas

/-!
# Tables that are built name by name

Whatever names are interned in a fresh table, in any order and as often as one likes, the table is a
bijection between the names that have been met and the numbers below its size. Behind the fixed
numbers, the names are numbered in the order in which they were met first, and they keep their
numbers.

The same holds of a table that looks names up in an index, and whose numbers are words of 32 bits,
until it has no number left.
-/

namespace PrologTerms

namespace AtomTable

variable {t t' : AtomTable} {name : String} {a : AtomId}

/-! ## One name -/

theorem name?_eq_some_iff : t.name? a = some name ↔ a < t.size ∧ t.name a = name := by
  constructor
  · intro h
    refine ⟨Arena.lt_size_of_get? h, ?_⟩
    rw [AtomTable.name, h, Option.getD_some]
  · rintro ⟨ha, rfl⟩
    rw [name?, ← Arena.getElem?_toList, getElem?_of_lt ha]

theorem exists_find?_iff : (∃ a, t.find? name = some a) ↔ name ∈ t.names.toList := by
  constructor
  · rintro ⟨a, h⟩
    obtain ⟨ha, rfl⟩ := name_of_find? h
    exact List.mem_of_getElem? (getElem?_of_lt ha)
  · intro hm
    exact Option.ne_none_iff_exists'.1 fun h => not_mem_of_find?_eq_none h hm

theorem find?_eq_none_iff : t.find? name = none ↔ name ∉ t.names.toList := by
  rw [← exists_find?_iff, ← Option.ne_none_iff_exists', not_not]

/-- Looking a name up and looking at what a number stands for undo each other. -/
theorem WellFormed.find?_eq_some_iff (hw : t.WellFormed) :
    t.find? name = some a ↔ t.name? a = some name := by
  rw [name?_eq_some_iff]
  constructor
  · exact name_of_find?
  · rintro ⟨ha, rfl⟩
    have hm : t.name a ∈ t.names.toList := List.mem_of_getElem? (getElem?_of_lt ha)
    obtain ⟨b, hb⟩ := exists_find?_iff.2 hm
    obtain ⟨hlt, hname⟩ := name_of_find? hb
    rw [hb, hw.name_injective hlt ha hname]

theorem WellFormed.lt_size_iff (hw : t.WellFormed) :
    a < t.size ↔ ∃ name, t.find? name = some a := by
  constructor
  · intro ha
    exact ⟨t.name a, hw.find?_eq_some_iff.2 (name?_eq_some_iff.2 ⟨ha, rfl⟩)⟩
  · rintro ⟨name, h⟩
    exact (name_of_find? h).1

theorem Extends.name?_eq_some (h : t.Extends t') (ha : t.name? a = some name) :
    t'.name? a = some name := by
  obtain ⟨hlt, hname⟩ := name?_eq_some_iff.1 ha
  exact name?_eq_some_iff.2 ⟨Nat.lt_of_lt_of_le hlt h.size_le, (h.name_eq hlt).trans hname⟩

theorem intern_of_find? (h : t.find? name = some a) : t.intern name = (a, t) := by
  rw [intern, h]

theorem intern_of_not_find? (h : t.find? name = none) :
    t.intern name = (t.size, ⟨t.names.push name⟩) := by
  rw [intern, h]

theorem find?_push (t : AtomTable) (name m : String) :
    (AtomTable.mk (t.names.push name)).find? m =
      (t.find? m).or (if name = m then some t.size else none) := by
  obtain ⟨⟨⟨ns⟩⟩⟩ := t
  simp [find?, List.idxOf?, Arena.push, List.findIdx?_append, size, Arena.size]

theorem names_intern (t : AtomTable) (name : String) : (t.intern name).2.names.toList =
    if name ∈ t.names.toList then t.names.toList else t.names.toList ++ [name] := by
  unfold intern
  split
  · next a h => rw [if_pos (exists_find?_iff.1 ⟨a, h⟩)]
  · next h => rw [if_neg (not_mem_of_find?_eq_none h), Arena.toList_push]

/-! ## Many names -/

/-- Interns names one after the other, and gives the number of each. -/
def internAll (t : AtomTable) : List String → List AtomId × AtomTable
  | [] => ([], t)
  | name :: names =>
    let first := t.intern name
    let others := first.2.internAll names
    (first.1 :: others.1, others.2)

/-- The table that comes of names that are interned in a fresh one. -/
def ofNames (names : List String) : AtomTable := (fresh.internAll names).2

/-- The numbers that names get when they are interned in a fresh table. -/
def numbersOf (names : List String) : List AtomId := (fresh.internAll names).1

theorem internAll_append (t : AtomTable) (xs ys : List String) :
    (t.internAll (xs ++ ys)).2 = ((t.internAll xs).2.internAll ys).2 := by
  induction xs generalizing t with
  | nil => rfl
  | cons x xs ih => exact ih (t.intern x).2

theorem internAll_spec (hw : t.WellFormed) (names : List String) :
    (t.internAll names).2.WellFormed ∧ t.Extends (t.internAll names).2 := by
  induction names generalizing t with
  | nil => exact ⟨hw, .refl t⟩
  | cons name names ih =>
    obtain ⟨hw₁, hx₁, -, -⟩ := intern_spec hw name
    obtain ⟨hw₂, hx₂⟩ := ih hw₁
    exact ⟨hw₂, hx₁.trans hx₂⟩

/-- The numbers that names are given stand for these names from then on. -/
theorem name?_internAll (hw : t.WellFormed) (names : List String)
    (hx : (t.internAll names).2.Extends t') :
    (t.internAll names).1.map t'.name? = names.map some := by
  induction names generalizing t with
  | nil => rfl
  | cons name names ih =>
    obtain ⟨hw₁, -, hlt, hname⟩ := intern_spec hw name
    have hfirst : t'.name? (t.intern name).1 = some name :=
      ((internAll_spec hw₁ names).2.trans hx).name?_eq_some (name?_eq_some_iff.2 ⟨hlt, hname⟩)
    exact congrArg₂ List.cons hfirst (ih hw₁ hx)

theorem eraseDups_append_singleton (names : List String) (name : String) :
    (names ++ [name]).eraseDups =
      if name ∈ names then names.eraseDups else names.eraseDups ++ [name] := by
  rw [List.eraseDups_append]
  by_cases h : name ∈ names <;> simp [List.removeAll, List.eraseDups_cons, h]

theorem eraseDups_of_nodup {names : List String} (h : names.Nodup) : names.eraseDups = names := by
  induction names using List.reverseRecOn with
  | nil => rfl
  | append_singleton names name ih =>
    rw [← List.concat_eq_append, List.nodup_concat] at h
    rw [eraseDups_append_singleton, if_neg h.1, ih h.2]

/-- The names of a table are the different ones among those that were met, in the order in which
they were met first. -/
theorem names_internAll (hw : t.WellFormed) (names : List String) :
    (t.internAll names).2.names.toList = (t.names.toList ++ names).eraseDups := by
  -- from the end, since a name is compared with those before it
  induction names using List.reverseRecOn with
  | nil =>
    rw [List.append_nil, eraseDups_of_nodup hw.nodup]
    rfl
  | append_singleton names name ih =>
    rw [internAll_append, ← List.append_assoc, eraseDups_append_singleton, ← ih]
    simp only [internAll, names_intern, ih, List.mem_eraseDups]

theorem wellFormed_ofNames (names : List String) : (ofNames names).WellFormed :=
  (internAll_spec wellFormed_fresh names).1

theorem names_ofNames (names : List String) :
    (ofNames names).names.toList = (Atom.pinned ++ names).eraseDups :=
  names_internAll wellFormed_fresh names

theorem extends_ofNames {earlier names : List String} (h : earlier <+: names) :
    (ofNames earlier).Extends (ofNames names) := by
  obtain ⟨later, rfl⟩ := h
  rw [ofNames, ofNames, internAll_append]
  exact (internAll_spec (wellFormed_ofNames earlier) later).2

theorem eq_of_names (h : t.names.toList = t'.names.toList) : t = t' := by
  obtain ⟨a⟩ := t
  obtain ⟨b⟩ := t'
  have hab : a = b := Arena.ext_get? fun i => by
    rw [← Arena.getElem?_toList, ← Arena.getElem?_toList, h]
  rw [hab]

/-- The tables that are built name by name are just the well-formed ones. -/
theorem wellFormed_iff : t.WellFormed ↔ ∃ names, t = ofNames names := by
  constructor
  · intro hw
    obtain ⟨names, hnames⟩ := hw.pinned
    refine ⟨names, eq_of_names ?_⟩
    rw [names_ofNames, hnames, eraseDups_of_nodup hw.nodup]
  · rintro ⟨names, rfl⟩
    exact wellFormed_ofNames names

end AtomTable

/-! ## Tables with an index -/

/-- The names of atoms, together with an index of them. -/
structure AtomIndex where
  /-- The names in the order in which they were met. -/
  names : Arena String := {}
  /-- The numbers of the names. -/
  numbers : Std.HashMap String AtomId := {}

namespace AtomIndex

/-- How many numbers there are, if a number is a word of 32 bits. -/
def capacity : Nat := 4294967296

/-- The number of names. -/
def size (i : AtomIndex) : Nat := i.names.size

/-- The number of a name, if the name has been met. -/
def find? (i : AtomIndex) (name : String) : Option AtomId := i.numbers[name]?

/-- The name of a number, if it has been assigned. -/
def name? (i : AtomIndex) (a : AtomId) : Option String := i.names.get? a

/-- The number of a name, assigned now if the name is new; there may be none left for it. -/
def intern? (i : AtomIndex) (name : String) : Option (AtomId × AtomIndex) :=
  match i.find? name with
  | some a => some (a, i)
  | none =>
    if i.size < capacity then
      some (i.size, ⟨i.names.push name, i.numbers.insert name i.size⟩)
    else
      none

/-- Interns names one after the other, and gives the number of each. -/
def internAll? (i : AtomIndex) : List String → Option (List AtomId × AtomIndex)
  | [] => some ([], i)
  | name :: names => do
    let (a, i) ← i.intern? name
    let (as, i) ← i.internAll? names
    return (a :: as, i)

/-- Interns a name that has to get this number. -/
def pin? (i : AtomIndex) (p : String × AtomId) : Option AtomIndex := do
  let (a, i) ← i.intern? p.1
  if a = p.2 then some i else none

/-- The index of the names with fixed numbers, if they get these. -/
def fresh? : Option AtomIndex := Atom.pinned.zipIdx.foldlM pin? {}

/-- The numbers that names get when they are interned in a fresh index, and what comes of it. -/
def ofNames? (names : List String) : Option (List AtomId × AtomIndex) :=
  fresh?.bind fun i => i.internAll? names

/-- The index has the names of the table, and finds them under the same numbers. -/
structure Indexes (i : AtomIndex) (t : AtomTable) : Prop where
  names : i.names = t.names
  find? : ∀ name, i.find? name = t.find? name

variable {i : AtomIndex} {t : AtomTable} {name : String} {a : AtomId}

theorem indexes_empty : ({} : AtomIndex).Indexes ⟨.empty⟩ where
  names := rfl
  find? name := by
    rw [AtomIndex.find?, Std.HashMap.getElem?_empty]
    exact (AtomTable.find?_eq_none_iff.2 List.not_mem_nil).symm

theorem Indexes.size_eq (h : i.Indexes t) : i.size = t.size := by
  rw [size, h.names, AtomTable.size]

/-- A new name gets the next number in the index, as it does in the table. -/
theorem Indexes.push (h : i.Indexes t) (hname : t.find? name = none) :
    (AtomIndex.mk (i.names.push name) (i.numbers.insert name i.size)).Indexes
      ⟨t.names.push name⟩ where
  names := by rw [h.names]
  find? m := by
    rw [AtomIndex.find?, AtomTable.find?_push, Std.HashMap.getElem?_insert, h.size_eq]
    by_cases hm : name = m
    · rw [if_pos (beq_iff_eq.2 hm), if_pos hm, ← hm, hname, Option.none_or]
    · rw [if_neg (fun hb => hm (beq_iff_eq.1 hb)), if_neg hm, Option.or_none]
      exact h.find? m

theorem intern?_of_find? (h : i.find? name = some a) : i.intern? name = some (a, i) := by
  rw [intern?, h]

theorem Indexes.intern?_of_not_find? (h : i.Indexes t) (hname : i.find? name = none)
    (hlt : i.size < capacity) :
    ∃ j, i.intern? name = some (i.size, j) ∧ j.Indexes (t.intern name).2 := by
  have hname' : t.find? name = none := (h.find? name).symm.trans hname
  rw [AtomTable.intern_of_not_find? hname']
  refine ⟨_, ?_, h.push hname'⟩
  rw [AtomIndex.intern?, hname]
  exact if_pos hlt

/-- As long as there is room, the index does what the table does. -/
theorem Indexes.intern? (h : i.Indexes t) (name : String)
    (hroom : (t.intern name).2.size ≤ capacity) :
    ∃ j, i.intern? name = some ((t.intern name).1, j) ∧ j.Indexes (t.intern name).2 := by
  cases hname : t.find? name with
  | some a =>
    rw [AtomTable.intern_of_find? hname]
    exact ⟨i, intern?_of_find? ((h.find? name).trans hname), h⟩
  | none =>
    have hintern := AtomTable.intern_of_not_find? hname
    rw [hintern, AtomTable.size, Arena.size_push] at hroom
    have hlt : i.size < capacity := by
      rw [h.size_eq]
      exact hroom
    obtain ⟨j, hj, hjt⟩ := h.intern?_of_not_find? ((h.find? name).trans hname) hlt
    refine ⟨j, ?_, hjt⟩
    rw [hj, hintern, h.size_eq]

theorem Indexes.intern?_eq_none (h : i.Indexes t) (ht : t.size ≤ capacity)
    (hfull : capacity < (t.intern name).2.size) : i.intern? name = none := by
  rw [AtomIndex.intern?, h.find? name]
  cases hname : t.find? name with
  | some a =>
    rw [AtomTable.intern_of_find? hname] at hfull
    exact absurd ht (Nat.not_le.2 hfull)
  | none =>
    rw [AtomTable.intern_of_not_find? hname, AtomTable.size, Arena.size_push] at hfull
    have hge : ¬ i.size < capacity := by
      rw [h.size_eq]
      exact Nat.not_lt.2 (Nat.le_of_lt_succ hfull)
    exact if_neg hge

theorem Indexes.internAll? (h : i.Indexes t) (hw : t.WellFormed) {names : List String}
    (hroom : (t.internAll names).2.size ≤ capacity) :
    ∃ j, i.internAll? names = some ((t.internAll names).1, j) ∧
      j.Indexes (t.internAll names).2 := by
  induction names generalizing i t with
  | nil => exact ⟨i, rfl, h⟩
  | cons name names ih =>
    have hw' := (AtomTable.intern_spec hw name).1
    have hgrow := (AtomTable.internAll_spec hw' names).2.size_le
    obtain ⟨j, hj, hjt⟩ := h.intern? name (Nat.le_trans hgrow hroom)
    obtain ⟨k, hk, hkt⟩ := ih hjt hw' hroom
    refine ⟨k, ?_, hkt⟩
    rw [AtomIndex.internAll?, hj]
    simp only [Option.bind_eq_bind, Option.bind_some, hk]
    rfl

/-- There is no number for a name for which there is no room. -/
theorem Indexes.internAll?_eq_none (h : i.Indexes t) (hw : t.WellFormed) (ht : t.size ≤ capacity)
    {names : List String} (hfull : capacity < (t.internAll names).2.size) :
    i.internAll? names = none := by
  induction names generalizing i t with
  | nil => exact absurd ht (Nat.not_le.2 hfull)
  | cons name names ih =>
    have hw' := (AtomTable.intern_spec hw name).1
    rw [AtomIndex.internAll?]
    -- the numbers are used up by this name, or else by one of the others
    by_cases hroom : (t.intern name).2.size ≤ capacity
    · obtain ⟨j, hj, hjt⟩ := h.intern? name hroom
      simp only [Option.bind_eq_bind, hj, Option.bind_some, ih hjt hw' hroom hfull]
      rfl
    · rw [h.intern?_eq_none ht (Nat.not_le.1 hroom)]
      rfl

/-- New names get the next numbers, one after the other. -/
theorem Indexes.pinAll? (h : i.Indexes t) (names : List String)
    (hnew : (t.names.toList ++ names).Nodup) (hroom : t.size + names.length ≤ capacity) :
    ∃ j, (names.zipIdx t.size).foldlM pin? i = some j ∧ j.Indexes ⟨t.names.append names⟩ := by
  induction names generalizing i t with
  | nil =>
    rw [Arena.append_nil]
    exact ⟨i, rfl, h⟩
  | cons name names ih =>
    have hname : t.find? name = none := by
      rw [AtomTable.find?_eq_none_iff]
      intro hm
      exact List.disjoint_of_nodup_append hnew hm List.mem_cons_self
    have hintern := AtomTable.intern_of_not_find? hname
    have hsize : (AtomTable.mk (t.names.push name)).size = t.size + 1 := Arena.size_push _ _
    rw [List.length_cons] at hroom
    obtain ⟨j, hj, hjt⟩ := h.intern? name (by rw [hintern, hsize]; omega)
    rw [hintern] at hj hjt
    have hpin : i.pin? (name, t.size) = some j := by
      rw [pin?, hj]
      exact if_pos rfl
    obtain ⟨k, hk, hkt⟩ := ih hjt (by rwa [Arena.toList_push, List.append_assoc])
      (by rw [hsize]; omega)
    refine ⟨k, ?_, ?_⟩
    · rw [List.zipIdx_cons, List.foldlM_cons, hpin, ← hsize]
      exact hk
    · rwa [Arena.push_append] at hkt

theorem exists_fresh? : ∃ i, fresh? = some i ∧ i.Indexes AtomTable.fresh :=
  indexes_empty.pinAll? Atom.pinned (by decide +kernel) (by decide +kernel)

/-- The index that comes of names does what the table does that comes of them, as long as there is
room for all different ones. -/
theorem exists_ofNames? {names : List String} (hroom : (AtomTable.ofNames names).size ≤ capacity) :
    ∃ i, ofNames? names = some (AtomTable.numbersOf names, i) ∧
      i.Indexes (AtomTable.ofNames names) := by
  obtain ⟨i, hi, hit⟩ := exists_fresh?
  rw [ofNames?, hi, Option.bind_some]
  exact hit.internAll? AtomTable.wellFormed_fresh hroom

theorem ofNames?_eq_none {names : List String}
    (hfull : capacity < (AtomTable.ofNames names).size) : ofNames? names = none := by
  obtain ⟨i, hi, hit⟩ := exists_fresh?
  rw [ofNames?, hi, Option.bind_some]
  exact hit.internAll?_eq_none AtomTable.wellFormed_fresh (by decide +kernel) hfull

end AtomIndex

/-! ## All tables -/

namespace AtomTable

/-- Whatever names are interned in a fresh table, it is a bijection that only grows. Its names are
the fixed ones and the ones interned, in the order in which they were met first. The numbers that
are assigned are those below its size, and looking a name up and looking at what a number stands for
undo each other, for the names that have been met and for no others. To intern a name that has been
met gives its number and changes nothing; a new name gets the size for its number, and is added. All
that the table said at an earlier time it still says, so every number that was given to a name then
is still the number of that name, and so are the fixed numbers.

An index of the names does the same, as long as there are numbers for all different names; else
there is no number for one of them. -/
theorem ofNames_bijection (names : List String) :
    (ofNames names).names.toList = (Atom.pinned ++ names).eraseDups ∧
    (∀ a, a < (ofNames names).size ↔ ∃ name, (ofNames names).find? name = some a) ∧
    (∀ name a, (ofNames names).find? name = some a ↔ (ofNames names).name? a = some name) ∧
    (∀ name, (∃ a, (ofNames names).find? name = some a) ↔ name ∈ Atom.pinned ∨ name ∈ names) ∧
    (∀ name a, (ofNames names).find? name = some a →
      (ofNames names).intern name = (a, ofNames names)) ∧
    (∀ name, (ofNames names).find? name = none →
      ((ofNames names).intern name).1 = (ofNames names).size ∧
      ((ofNames names).intern name).2.names.toList = (ofNames names).names.toList ++ [name]) ∧
    (∀ earlier, earlier <+: names →
      (∀ a name, (ofNames earlier).name? a = some name → (ofNames names).name? a = some name) ∧
      (numbersOf earlier).map (ofNames names).name? = earlier.map some) ∧
    (∀ a name, Atom.pinned[a]? = some name → (ofNames names).find? name = some a) ∧
    ((ofNames names).size ≤ AtomIndex.capacity →
      ∃ i, AtomIndex.ofNames? names = some (numbersOf names, i) ∧ i.Indexes (ofNames names) ∧
        (∀ name a, i.find? name = some a → i.intern? name = some (a, i)) ∧
        (∀ name, i.find? name = none → i.size < AtomIndex.capacity →
          ∃ j, i.intern? name = some (i.size, j) ∧ j.Indexes ((ofNames names).intern name).2)) ∧
    (AtomIndex.capacity < (ofNames names).size → AtomIndex.ofNames? names = none) := by
  have hw := wellFormed_ofNames names
  refine ⟨names_ofNames names, fun a => hw.lt_size_iff, fun name a => hw.find?_eq_some_iff,
    fun name => ?_, fun name a => intern_of_find?, fun name hname => ?_, fun earlier h => ?_,
    fun a name ha => ?_, fun hroom => ?_, AtomIndex.ofNames?_eq_none⟩
  · rw [exists_find?_iff, names_ofNames, List.mem_eraseDups, List.mem_append]
  · rw [intern_of_not_find? hname, Arena.toList_push]
    exact ⟨rfl, rfl⟩
  · have hx := extends_ofNames h
    exact ⟨fun a name => hx.name?_eq_some, name?_internAll wellFormed_fresh earlier hx⟩
  · obtain ⟨hlt, rfl⟩ := List.getElem?_eq_some_iff.1 ha
    exact hw.find?_eq_some_iff.2 (name?_eq_some_iff.2 ⟨hw.pinned_lt hlt, hw.name_pinned hlt⟩)
  · obtain ⟨i, hi, hit⟩ := AtomIndex.exists_ofNames? hroom
    exact ⟨i, hi, hit, fun name a => AtomIndex.intern?_of_find?,
      fun name hname hlt => hit.intern?_of_not_find? hname hlt⟩

/-- Two names, one of them met twice, and the name of the empty list. -/
theorem ofNames_bijection_twice :
    let names := ["likes", "mary", "likes", "[]"]
    (ofNames names).names.toList = Atom.pinned ++ ["likes", "mary"] ∧
      numbersOf names = [9, 10, 9, 0] ∧
      (10 < (ofNames names).size ∧ ∃ name, (ofNames names).find? name = some 10) ∧
      ((ofNames names).name? 10 = some "mary" ∧ (ofNames names).find? "mary" = some 10) ∧
      ("likes" ∈ names ∧ ∃ a, (ofNames names).find? "likes" = some a) ∧
      (ofNames names).intern "mary" = (10, ofNames names) ∧
      ((ofNames names).find? "john" = none ∧
        ((ofNames names).intern "john").1 = (ofNames names).size) ∧
      (["likes"] <+: names ∧ (ofNames ["likes"]).name? 9 = some "likes" ∧
        (ofNames names).name? 9 = some "likes") ∧
      (Atom.pinned[Atom.curly]? = some "{}" ∧ (ofNames names).find? "{}" = some Atom.curly) ∧
      ((ofNames names).size ≤ AtomIndex.capacity ∧
        ∃ i, AtomIndex.ofNames? names = some ([9, 10, 9, 0], i) ∧
          i.intern? "mary" = some (10, i) ∧ i.find? "john" = none ∧
          i.size < AtomIndex.capacity ∧ ∃ j, i.intern? "john" = some (i.size, j)) := by
  intro names
  obtain ⟨hnames, hlt, hinverse, hmet, hknown, hnew, hearlier, hpinned, hroom, -⟩ :=
    ofNames_bijection names
  have hnumbers : numbersOf names = [9, 10, 9, 0] := by decide +kernel
  have hten : 10 < (ofNames names).size := by decide +kernel
  have hmary : (ofNames names).name? 10 = some "mary" := by decide +kernel
  have hfound := (hinverse "mary" 10).2 hmary
  have hmem : "likes" ∈ names := List.mem_cons_self
  have hjohn : (ofNames names).find? "john" = none := by decide +kernel
  have hbefore : ["likes"] <+: names := ⟨["mary", "likes", "[]"], rfl⟩
  have hlikes : (ofNames ["likes"]).name? 9 = some "likes" := by decide +kernel
  have hcurly : Atom.pinned[Atom.curly]? = some "{}" := rfl
  have hsize : (ofNames names).size < AtomIndex.capacity := by decide +kernel
  obtain ⟨i, hi, hit, hunchanged, hadded⟩ := hroom (Nat.le_of_lt hsize)
  rw [hnumbers] at hi
  have hmissing := (hit.find? "john").trans hjohn
  have hlast : i.size < AtomIndex.capacity := hit.size_eq ▸ hsize
  obtain ⟨j, hj, -⟩ := hadded "john" hmissing hlast
  exact ⟨hnames.trans (by decide +kernel), hnumbers, ⟨hten, (hlt 10).1 hten⟩, ⟨hmary, hfound⟩,
    ⟨hmem, (hmet "likes").2 (.inr hmem)⟩, hknown "mary" 10 hfound, ⟨hjohn, (hnew "john" hjohn).1⟩,
    ⟨hbefore, hlikes, (hearlier ["likes"] hbefore).1 9 "likes" hlikes⟩,
    ⟨hcurly, hpinned _ _ hcurly⟩, Nat.le_of_lt hsize, i, hi,
    hunchanged "mary" 10 ((hit.find? "mary").trans hfound), hmissing, hlast, j, hj⟩

end AtomTable

end PrologTerms
