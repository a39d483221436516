import PrologTerms.Proofs.Writing.Unambiguous

/-!
# Tables for which terms look the same

None of the conditions on unambiguous tables can be left out: wherever one of them fails, there are two
terms that are written in the same pieces. Integers are their only leaves.
-/

namespace PrologTerms

variable {ops : OpTable} {n n' : String} {d d' : OpDef} {x x' : Fixity} {m : Nat}

namespace Tree

variable {t u a b c : Tree} {ls rs args : List Tree}

/-- What every part is like of a term of integers. -/
def numericPart : Tree → Prop
  | .int z => fitsWord z = true
  | .compound _ args => args ≠ []
  | _ => False

/-- The tree is made of integers. -/
def Numeric (t : Tree) : Prop := t.Everywhere numericPart

@[simp] theorem numeric_compound :
    (compound n args).Numeric ↔ args ≠ [] ∧ ∀ a ∈ args, a.Numeric := everywhere_compound

@[simp] theorem numeric_int (z : Int) : (int z).Numeric ↔ fitsWord z = true := Iff.rfl

theorem Numeric.writable (h : t.Numeric) : t.Writable := by
  induction t using Tree.induction with
  | compound name args ih =>
    obtain ⟨hne, hargs⟩ := numeric_compound.1 h
    exact everywhere_compound.2 ⟨hne, fun a ha => ih a ha (hargs a ha)⟩
  | int z => exact h
  | _ => exact h.elim

theorem row_of_le (h : IsOperation ops t ls x n d rs) (hm : d.priority ≤ m) : t.row ops m =
    ls.flatMap (fun a => a.row ops d.leftMax) ++ .op x n d ::
      rs.flatMap (fun a => a.row ops d.rightMax) := by
  rw [row_of_isOperation h, if_neg (Nat.not_lt_of_le hm)]

theorem row_int (z : Int) (m : Nat) : (int z).row ops m = [.term (.int z)] :=
  row_of_not_isOperation (fun _ _ _ _ _ h => by cases h) m

/-- Operations with the same row are written in the same pieces. -/
theorem pieces_eq_of_row (hr : ops.InRange) (ht : t.Numeric) (hw : u.Numeric)
    (h : writeRow ops (t.row ops OpTable.maxPriority) [] =
      writeRow ops (u.row ops OpTable.maxPriority) []) : t.pieces ops = u.pieces ops := by
  have hatom : ∀ {v : Tree}, v.Numeric → ∀ n, v ≠ .atom n := by
    rintro _ hv n rfl
    exact hv
  have htrow := write_eq_writeRow hr ht.writable .whole (by simp) (.inr (hatom ht)) []
  have hwrow := write_eq_writeRow hr hw.writable .whole (by simp) (.inr (hatom hw)) []
  exact htrow.trans (h.trans hwrow.symm)

/-- If two operators of one priority both claim what is between them, then it does not show which of
them has it. -/
theorem row_eq_of_claimed (hp : d.priority = d'.priority) (hright : d.rightOpen = true)
    (hleft : d'.leftOpen = true) (hm : d.priority ≤ m)
    (hb : IsOperation ops b [c] x' n' d' rs) (ht : IsOperation ops t ls x n d [b])
    (ha : IsOperation ops a ls x n d [c]) (hu : IsOperation ops u [a] x' n' d' rs) :
    t.row ops m = u.row ops m := by
  have hr : d.rightMax = d.priority := if_pos hright
  have hl : d'.leftMax = d.priority := (if_pos hleft).trans hp.symm
  have hb := row_of_le hb (Nat.le_of_eq hp.symm)
  have ha := row_of_le ha (Nat.le_refl d.priority)
  rw [hl, List.flatMap_singleton] at hb
  rw [hr, List.flatMap_singleton] at ha
  rw [row_of_le ht hm, row_of_le hu (hp ▸ hm), hr, hl, List.flatMap_singleton, List.flatMap_singleton,
    ha, hb, List.append_assoc]
  rfl

end Tree

namespace OpTable

open PrologTerms.Tree

/-- No two terms of integers are written in the same pieces. -/
def Separates (ops : OpTable) : Prop :=
  ∀ t u : Tree, t.Numeric → u.Numeric → t.pieces ops = u.pieces ops → t = u

theorem fixity_of_written? (h : ops.written? x n = some d) : d.cls.fixity = x := by
  have hx := (mem_of_find? (find?_of_written? h)).2
  simpa [OpDef.stands] using hx

theorem ne_behind_of_rightOpen (h : ops.written? x n = some d) (hright : d.rightOpen = true) :
    x ≠ .behind := by
  have hx := fixity_of_written? h
  rintro rfl
  unfold OpDef.rightOpen at hright
  cases hc : d.cls <;> simp_all [OpClass.fixity]

theorem ne_before_of_leftOpen (h : ops.written? x n = some d) (hleft : d.leftOpen = true) :
    x ≠ .before := by
  have hx := fixity_of_written? h
  rintro rfl
  unfold OpDef.leftOpen at hleft
  cases hc : d.cls <;> simp_all [OpClass.fixity]

theorem Separates.unclaimed (hs : ops.Separates) (hr : ops.InRange) (hd : ops.written? x n = some d)
    (hd' : ops.written? x' n' = some d') (hp : d.priority = d'.priority) (hright : d.rightOpen = true) :
    d'.leftOpen = false := by
  by_contra hleft
  rw [Bool.not_eq_false] at hleft
  have hmax := hr.le_max _ _ _ (find?_of_written? hd)
  -- one operator beside the other, with the integer 1 between them
  have hsep : ∀ {t u a b : Tree} {ls rs : List Tree}, t.Numeric → u.Numeric →
      IsOperation ops b [.int 1] x' n' d' rs → IsOperation ops t ls x n d [b] →
      IsOperation ops a ls x n d [.int 1] → IsOperation ops u [a] x' n' d' rs → t = u := by
    intro t u a b ls rs ht hu hb ht' ha hu'
    have hrow := row_eq_of_claimed hp hright hleft hmax hb ht' ha hu'
    exact hs t u ht hu (pieces_eq_of_row hr ht hu (by rw [hrow]))
  have hints : fitsWord 0 = true ∧ fitsWord 1 = true ∧ fitsWord 2 = true := by decide
  cases x with
  | behind => exact ne_behind_of_rightOpen hd hright rfl
  | before =>
    cases x' with
    | before => exact ne_before_of_leftOpen hd' hleft rfl
    | between =>
      have e := hsep (by simp [hints]) (by simp [hints]) (@IsOperation.between _ _ _ _ (.int 2) hd')
        (.before hd) (.before hd) (.between hd')
      simp at e
    | behind =>
      have e := hsep (by simp [hints]) (by simp [hints]) (.behind hd') (.before hd) (.before hd)
        (.behind hd')
      rw [compound.injEq] at e
      obtain ⟨rfl, -⟩ := e
      rw [written?_before_of_behind hd'] at hd
      cases hd
  | between =>
    cases x' with
    | before => exact ne_before_of_leftOpen hd' hleft rfl
    | between =>
      have e := hsep (by simp [hints]) (by simp [hints]) (@IsOperation.between _ _ _ _ (.int 2) hd')
        (@IsOperation.between _ _ _ (.int 0) _ hd) (.between hd) (.between hd')
      simp at e
    | behind =>
      have e := hsep (by simp [hints]) (by simp [hints]) (.behind hd')
        (@IsOperation.between _ _ _ (.int 0) _ hd) (.between hd) (.behind hd')
      simp at e

theorem Separates.comma (hs : ops.Separates) (hd : ops.between? "," = some d) :
    argumentMax < d.priority := by
  by_contra hle
  -- a comma between operands looks like one between arguments
  let t : Tree := .compound "f" [.compound "," [.int 0, .int 1], .int 2, .int 3]
  let u : Tree := .compound "f" [.int 0, .int 1, .int 2, .int 3]
  have hpieces : t.pieces ops = u.pieces ops := by
    simp [t, u, pieces, write, writeArgs, hd, hle, bracketed, betweenOperands, Place.lead,
      Place.max]
  have hints : fitsWord 0 = true ∧ fitsWord 1 = true ∧ fitsWord 2 = true ∧ fitsWord 3 = true := by
    decide
  have e := hs t u (by simp [t, hints]) (by simp [u, hints]) hpieces
  simp [t, u] at e

theorem Separates.roles (hs : ops.Separates) (hr : ops.InRange)
    {dBetween dBehind dBefore' dBetween' : OpDef} (hn : n ≠ ",") (hn' : n' ≠ ",")
    (h₁ : ops.written? .between n = some dBetween) (h₂ : ops.written? .behind n = some dBehind)
    (h₃ : ops.written? .before n' = some dBefore') (h₄ : ops.written? .between n' = some dBetween')
    (hle : dBehind.priority ≤ dBetween'.leftMax) : ¬ dBefore'.priority ≤ dBetween.rightMax := by
  intro hle'
  let t : Tree := .compound n' [.compound n [.int 0], .int 1]
  let u : Tree := .compound n [.int 0, .compound n' [.int 1]]
  have htrow := row_of_le (.between h₄ : IsOperation ops t _ _ _ _ _)
    (hr.le_max _ _ _ (find?_of_written? h₄))
  have hurow := row_of_le (.between h₁ : IsOperation ops u _ _ _ _ _)
    (hr.le_max _ _ _ (find?_of_written? h₁))
  rw [List.flatMap_singleton, List.flatMap_singleton, row_of_le (.behind h₂) hle] at htrow
  rw [List.flatMap_singleton, List.flatMap_singleton, row_of_le (.before h₃) hle'] at hurow
  have hrow : writeRow ops (t.row ops maxPriority) [] = writeRow ops (u.row ops maxPriority) [] := by
    rw [htrow, hurow]
    simp [row_int, writeRow, Item.write, betweenOperands, hn, hn']
  have hints : fitsWord 0 = true ∧ fitsWord 1 = true := by decide
  have ht : t.Numeric := by simp [t, hints]
  have hu : u.Numeric := by simp [u, hints]
  have e := hs t u ht hu (pieces_eq_of_row hr ht hu hrow)
  simp [t, u] at e

/-- Exactly the unambiguous tables separate terms of integers. -/
theorem separates_iff (hr : ops.InRange) : ops.Separates ↔ ops.Unambiguous := by
  constructor
  · intro hs
    exact ⟨fun _ _ _ _ _ _ hd hd' => hs.unclaimed hr hd hd', fun _ => hs.comma,
      fun _ _ _ _ _ _ => hs.roles hr⟩
  · intro hu t u ht hw e
    exact Tree.pieces_injective hu hr ht.writable hw.writable e

end OpTable

end PrologTerms
