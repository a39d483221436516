/-!
# Arenas

An arena is storage that only grows: a new element gets the next free index, and no element is ever
removed or moved, so an index handed out once stays valid. The heap is an arena of cells.
-/

namespace PrologTerms

/-- Elements stored under consecutive indices, in the order in which they were added. -/
structure Arena (α : Type) where
  /-- The elements; the index of an element is its place in the array. -/
  slots : Array α := #[]
deriving Repr, DecidableEq

namespace Arena

variable {α : Type}

/-- The arena without elements. -/
def empty : Arena α := {}

/-- The number of elements, which is also the index that the next one receives. -/
def size (a : Arena α) : Nat := a.slots.size

/-- Adds an element under the next free index. -/
def push (a : Arena α) (x : α) : Arena α := ⟨a.slots.push x⟩

/-- Adds several elements under the next free indices. -/
def append (a : Arena α) (xs : List α) : Arena α := ⟨a.slots ++ xs.toArray⟩

/-- The element at an index, if there is one. -/
def get? (a : Arena α) (i : Nat) : Option α := a.slots[i]?

/-- Replaces the element at an index; an index without an element is left alone. -/
def set (a : Arena α) (i : Nat) (x : α) : Arena α := ⟨a.slots.setIfInBounds i x⟩

/-- The elements at the indices from `i` up to, but not including, `i + n`. -/
def slice (a : Arena α) (i n : Nat) : List α := (a.slots.extract i (i + n)).toList

/-- The elements in the order of their indices. -/
def toList (a : Arena α) : List α := a.slots.toList

/-- The elements with their indices, in order. -/
def entries (a : Arena α) : List (Nat × α) := a.toList.zipIdx.map fun p => (p.2, p.1)

@[simp] theorem size_push (a : Arena α) (x : α) : (a.push x).size = a.size + 1 := by
  simp [size, push]

@[simp] theorem size_append (a : Arena α) (xs : List α) :
    (a.append xs).size = a.size + xs.length := by
  simp [size, append]

@[simp] theorem size_set (a : Arena α) (i : Nat) (x : α) : (a.set i x).size = a.size := by
  simp [size, set]

/-- Reading after an addition: the new element at the new index, the old ones elsewhere. -/
theorem get?_push (a : Arena α) (x : α) (i : Nat) :
    (a.push x).get? i = if i = a.size then some x else a.get? i := by
  by_cases h : i = a.slots.size <;> simp [get?, push, size, Array.getElem?_push, h]

/-- Reading after a replacement: the new element at its index, the old ones elsewhere. -/
theorem get?_set (a : Arena α) (i j : Nat) (x : α) :
    (a.set i x).get? j = if i = j ∧ i < a.size then some x else a.get? j := by
  simp only [get?, set, size, Array.getElem?_setIfInBounds]
  by_cases h : i = j
  · subst h
    by_cases hi : i < a.slots.size <;> simp [hi]
  · simp [h]

/-- An index has an element exactly if it is smaller than the size. -/
theorem isSome_get?_iff (a : Arena α) (i : Nat) : (a.get? i).isSome ↔ i < a.size := by
  simp [get?, size]

theorem lt_size_of_get? {a : Arena α} {i : Nat} {x : α} (h : a.get? i = some x) : i < a.size := by
  rw [← isSome_get?_iff, h]
  rfl

theorem exists_get?_of_lt {a : Arena α} {i : Nat} (h : i < a.size) : ∃ x, a.get? i = some x :=
  Option.isSome_iff_exists.1 ((isSome_get?_iff a i).2 h)

/-- Two arenas with the same elements under the same indices are the same. -/
theorem ext_get? {a b : Arena α} (h : ∀ i, a.get? i = b.get? i) : a = b := by
  cases a
  cases b
  congr 1
  exact Array.ext_getElem? h

/-- Reading after the addition of several elements: the new elements behind the old ones. -/
theorem get?_append (a : Arena α) (xs : List α) (i : Nat) :
    (a.append xs).get? i = if i < a.size then a.get? i else xs[i - a.size]? := by
  by_cases h : i < a.slots.size <;> simp [get?, append, size, Array.getElem?_append, h]

@[simp] theorem toList_push (a : Arena α) (x : α) : (a.push x).toList = a.toList ++ [x] := by
  simp [toList, push]

@[simp] theorem toList_append (a : Arena α) (xs : List α) :
    (a.append xs).toList = a.toList ++ xs := by
  simp [toList, append]

@[simp] theorem append_nil (a : Arena α) : a.append [] = a := by
  simp [append]

theorem push_append (a : Arena α) (x : α) (xs : List α) :
    (a.push x).append xs = a.append (x :: xs) := by
  simp [push, append]

theorem append_append (a : Arena α) (xs ys : List α) :
    (a.append xs).append ys = a.append (xs ++ ys) := by
  simp [append]

theorem getElem?_toList (a : Arena α) (i : Nat) : a.toList[i]? = a.get? i := by
  simp [toList, get?]

@[simp] theorem length_toList (a : Arena α) : a.toList.length = a.size := by
  simp [toList, size]

/-- A slice inside an arena has all the elements asked for. -/
theorem length_slice {a : Arena α} {i n : Nat} (h : i + n ≤ a.size) : (a.slice i n).length = n := by
  simp only [size] at h
  simp only [slice, Array.length_toList, Array.size_extract]
  omega

/-- The elements of a slice are those under the indices from its start on. -/
theorem getElem?_slice (a : Arena α) (i n k : Nat) :
    (a.slice i n)[k]? = if k < n then a.get? (i + k) else none := by
  simp only [slice, get?, Array.getElem?_toList, Array.getElem?_extract]
  by_cases hk : k < n
  · by_cases hs : i + k < a.slots.size
    · rw [if_pos (by omega), if_pos hk]
    · rw [if_neg (by omega), if_pos hk, Array.getElem?_eq_none (by omega)]
  · rw [if_neg (by omega), if_neg hk]

end Arena

end PrologTerms
