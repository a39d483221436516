import PrologTerms.Atom
import Mathlib.Data.List.Nodup

/-!
# Numbers and names of atoms

No name is in a table twice, and a table only grows, so a number keeps its name and different numbers
have different names.
-/

namespace PrologTerms.AtomTable

/-- What a table of names looks like at any time. -/
structure WellFormed (t : AtomTable) : Prop where
  /-- No name has two numbers. -/
  nodup : t.names.toList.Nodup
  /-- The names with fixed numbers have these. -/
  pinned : Atom.pinned <+: t.names.toList

/-- The table `t'` has all the names of `t` under the same numbers. -/
def Extends (t t' : AtomTable) : Prop := t.names.toList <+: t'.names.toList

variable {t t' t'' : AtomTable}

theorem Extends.refl (t : AtomTable) : t.Extends t := List.prefix_rfl

theorem Extends.trans (h₁ : t.Extends t') (h₂ : t'.Extends t'') : t.Extends t'' :=
  List.IsPrefix.trans h₁ h₂

theorem Extends.size_le (h : t.Extends t') : t.size ≤ t'.size := by
  have := h.length_le
  rwa [Arena.length_toList, Arena.length_toList] at this

/-- A number keeps its name. -/
theorem Extends.name_eq (h : t.Extends t') {a : Nat} (ha : a < t.size) : t'.name a = t.name a := by
  obtain ⟨ns, hns⟩ := h
  have hlt : a < t.names.toList.length := by rwa [Arena.length_toList]
  rw [name, name, name?, name?, ← Arena.getElem?_toList, ← Arena.getElem?_toList, ← hns,
    List.getElem?_append_left hlt]

/-- A name keeps its number. -/
theorem Extends.find?_eq_some (h : t.Extends t') {name : String} {a : Nat}
    (ha : t.find? name = some a) : t'.find? name = some a := by
  obtain ⟨⟨⟨ns⟩⟩⟩ := t
  obtain ⟨⟨⟨ns'⟩⟩⟩ := t'
  obtain ⟨added, rfl⟩ := h
  simp only [find?, List.idxOf?_toArray, List.idxOf?] at ha ⊢
  show (ns ++ added).findIdx? _ = some a
  rw [List.findIdx?_append, ha, Option.some_or]

theorem wellFormed_fresh : fresh.WellFormed where
  nodup := by decide
  pinned := List.prefix_rfl

/-- All fixed numbers are assigned. -/
theorem WellFormed.pinned_lt (hw : t.WellFormed) {a : Nat} (ha : a < Atom.pinned.length) :
    a < t.size := by
  have h := hw.pinned.length_le
  rw [Arena.length_toList] at h
  exact Nat.lt_of_lt_of_le ha h

theorem WellFormed.extends (hw : t.WellFormed) (h : t.Extends t')
    (hn : t'.names.toList.Nodup) : t'.WellFormed :=
  ⟨hn, hw.pinned.trans h⟩

/-- A number that has been assigned is the number of its name. -/
theorem getElem?_of_lt {a : Nat} (ha : a < t.size) : t.names.toList[a]? = some (t.name a) := by
  obtain ⟨s, hs⟩ := Arena.exists_get?_of_lt (a := t.names) ha
  rw [Arena.getElem?_toList, hs, name, name?, hs]
  rfl

/-- Different numbers have different names. -/
theorem WellFormed.name_injective (hw : t.WellFormed) {a b : Nat} (ha : a < t.size)
    (hb : b < t.size) (e : t.name a = t.name b) : a = b := by
  have h := getElem?_of_lt ha
  rw [e, ← getElem?_of_lt hb] at h
  exact (List.getElem?_inj (by rwa [Arena.length_toList]) hw.nodup).1 h

/-- The names with fixed numbers are found under these. -/
theorem WellFormed.name_pinned (hw : t.WellFormed) {a : AtomId} (ha : a < Atom.pinned.length) :
    t.name a = Atom.pinned[a] := by
  have h := getElem?_of_lt (hw.pinned_lt ha)
  obtain ⟨others, e⟩ := hw.pinned
  rw [← e, List.getElem?_append_left ha, List.getElem?_eq_getElem ha] at h
  exact (Option.some.inj h).symm

/-- Only the fixed number of a name has this name. -/
theorem WellFormed.name_eq_pinned_iff (hw : t.WellFormed) {a b : AtomId} (ha : a < t.size)
    (hb : b < Atom.pinned.length) : t.name a = Atom.pinned[b] ↔ a = b := by
  rw [← hw.name_pinned hb]
  exact ⟨hw.name_injective ha (hw.pinned_lt hb), congrArg _⟩

/-- The number that is found for a name is that of the name. -/
theorem name_of_find? {name : String} {a : Nat} (h : t.find? name = some a) :
    a < t.size ∧ t.name a = name := by
  obtain ⟨⟨⟨ns⟩⟩⟩ := t
  have h' : ns.idxOf? name = some a := by simpa [find?] using h
  obtain ⟨hlt, he, -⟩ := List.idxOf?_eq_some_iff.1 h'
  refine ⟨hlt, ?_⟩
  have hg : ns[a]? = some name := by rw [List.getElem?_eq_getElem hlt, he]
  simp [AtomTable.name, name?, Arena.get?, hg]

theorem not_mem_of_find?_eq_none {name : String} (h : t.find? name = none) :
    name ∉ t.names.toList := by
  obtain ⟨⟨ns⟩⟩ := t
  rw [find?, Array.idxOf?_eq_none_iff] at h
  simpa [Arena.toList] using h

/-- Interning a name gives its number, and changes nothing else. -/
theorem intern_spec (hw : t.WellFormed) (name : String) : (t.intern name).2.WellFormed ∧
    t.Extends (t.intern name).2 ∧ (t.intern name).1 < (t.intern name).2.size ∧
    (t.intern name).2.name (t.intern name).1 = name := by
  unfold intern
  split
  · next a h =>
    obtain ⟨hlt, hn⟩ := name_of_find? h
    exact ⟨hw, .refl t, hlt, hn⟩
  · next h =>
    have hl := Arena.toList_push t.names name
    have hx : t.Extends ⟨t.names.push name⟩ := ⟨[name], hl.symm⟩
    refine ⟨hw.extends hx ?_, hx, by simp [size], ?_⟩
    · rw [hl]
      rw [← List.concat_eq_append]
      exact List.Nodup.concat (not_mem_of_find?_eq_none h) hw.nodup
    · simp [AtomTable.name, name?, Arena.get?_push, size]

end PrologTerms.AtomTable
