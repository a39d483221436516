import PrologTerms.Operator
import Mathlib.Order.Basic

/-!
# Operators that do not get in each other's way

A table of operators is regular if what is written with it can be told apart by looking one token
ahead: no name stands both between and behind its operands, brackets are no operators, the comma and
the bar are weaker than arguments, and no two operators of one priority both claim what is between
them. The operators of standard Prolog are regular.
-/

namespace PrologTerms

namespace OpDef

variable {d : OpDef}

theorem leftMax_le (d : OpDef) : d.leftMax ≤ d.priority := by
  unfold leftMax
  split <;> omega

theorem rightMax_le (d : OpDef) : d.rightMax ≤ d.priority := by
  unfold rightMax
  split <;> omega

theorem priority_le_leftMax (d : OpDef) : d.priority ≤ d.leftMax + 1 := by
  unfold leftMax
  split <;> omega

theorem leftOpen_of_leftMax (hpos : 0 < d.priority) (h : d.leftMax = d.priority) :
    d.leftOpen = true := by
  by_contra hc
  rw [leftMax, if_neg hc] at h
  omega

theorem rightOpen_of_rightMax (hpos : 0 < d.priority) (h : d.rightMax = d.priority) :
    d.rightOpen = true := by
  by_contra hc
  rw [rightMax, if_neg hc] at h
  omega

/-- An operator in front of another one does not let it take its operand, if it lets the term that
the operator makes stand before the other. -/
theorem not_fits {d' : OpDef} (hpos : 0 < d.priority) (hpos' : 0 < d'.priority)
    (hu : d.priority = d'.priority → d.rightOpen = true → d'.leftOpen = false)
    (h : d.priority ≤ d'.leftMax) : ¬ d'.priority ≤ d.rightMax := by
  intro hle
  have h₁ := d.rightMax_le
  have h₂ := d'.leftMax_le
  have hright := rightOpen_of_rightMax hpos (by omega)
  have hleft := leftOpen_of_leftMax hpos' (by omega)
  rw [hu (by omega) hright] at hleft
  cases hleft

end OpDef

namespace OpTable

variable {ops ops' : OpTable} {name : String} {x : Fixity} {d : OpDef}

/-- An operator that is found is one of the entries. -/
theorem mem_of_find? (h : ops.find? name x = some d) : (name, d) ∈ ops.entries ∧ d.stands x = true := by
  obtain ⟨e, he, rfl⟩ := Option.map_eq_some_iff.1 h
  have hp := List.find?_some he
  simp only [Bool.and_eq_true, beq_iff_eq] at hp
  obtain ⟨rfl, hx⟩ := hp
  exact ⟨List.mem_of_find?_eq_some he, hx⟩

/-- The operators are the names that are found at some place. -/
theorem isOp_iff : ops.isOp name = true ↔ ∃ x d, ops.find? name x = some d := by
  constructor
  · intro h
    obtain ⟨e, he, hn⟩ := List.any_eq_true.1 h
    have hfound : (ops.entries.find? fun e' => e'.1 == name && e'.2.stands e.2.cls.fixity).isSome := by
      rw [List.find?_isSome]
      exact ⟨e, he, by simp [hn, OpDef.stands]⟩
    obtain ⟨e', he'⟩ := Option.isSome_iff_exists.1 hfound
    exact ⟨e.2.cls.fixity, e'.2, by rw [find?, he', Option.map_some]⟩
  · rintro ⟨x, d, h⟩
    exact List.any_eq_true.2 ⟨_, (mem_of_find? h).1, by simp⟩

theorem isOp_eq_false (h : ops.isOp name = false) (x : Fixity) : ops.find? name x = none := by
  cases hd : ops.find? name x with
  | none => rfl
  | some d =>
    rw [isOp_iff.2 ⟨x, d, hd⟩] at h
    cases h

/-- Is the name an operator that only stands behind an operand, so that no operand can begin with
it? -/
def isTrailing (ops : OpTable) (name : String) : Bool :=
  ((ops.between? name).isSome || (ops.behind? name).isSome) && (ops.before? name).isNone

theorem isTrailing_of_before? (h : ops.before? name = some d) : ops.isTrailing name = false := by
  simp [isTrailing, h]

theorem isTrailing_of_not_isOp (h : ops.isOp name = false) : ops.isTrailing name = false := by
  simp [isTrailing, between?, behind?, isOp_eq_false h]

/-- All priorities are from 1 to the greatest one. -/
structure InRange (ops : OpTable) : Prop where
  /-- There is a least priority. -/
  pos : ∀ n x d, ops.find? n x = some d → 0 < d.priority
  /-- There is a greatest priority. -/
  le_max : ∀ n x d, ops.find? n x = some d → d.priority ≤ maxPriority

/-- A table in which one token decides how a term goes on. -/
structure Legible (ops : OpTable) : Prop where
  /-- No name stands both between and behind its operands. -/
  oneSided : ∀ name, ops.between? name = none ∨ ops.behind? name = none
  /-- Brackets are no operators. -/
  brackets : ∀ x, ops.find? "[]" x = none ∧ ops.find? "{}" x = none
  /-- A comma or a bar can only stand between its operands. -/
  separator : ∀ name, name = "," ∨ name = "|" → ops.before? name = none ∧ ops.behind? name = none
  /-- A comma or a bar is weaker than an argument. -/
  separator_weak : ∀ name d, name = "," ∨ name = "|" → ops.between? name = some d →
    1000 ≤ d.priority
  /-- An operand can begin with the minus sign of a number. -/
  minus : ops.isTrailing "-" = false
  /-- Of two operators of one priority, not both claim what is between them. -/
  unclaimed : ∀ n n' x x' d d', ops.find? n x = some d → ops.find? n' x' = some d' →
    d.priority = d'.priority → d.rightOpen = true → d'.leftOpen = false

/-- A legible table with priorities that an operator can have. -/
structure Regular (ops : OpTable) : Prop extends Legible ops, InRange ops

/-! ## Tables that are built operator by operator -/

/-- A definition takes the place of the old one and touches no other. -/
theorem find?_add (ops : OpTable) (name : String) (priority : Nat) (cls : OpClass) (n : String)
    (x : Fixity) : (ops.add name priority cls).find? n x =
      if n = name ∧ x = cls.fixity then
        if priority = 0 then none else some ⟨min priority maxPriority, cls⟩
      else ops.find? n x := by
  have hothers : ((ops.entries.filter fun e => !(e.1 == name && e.2.stands cls.fixity)).find?
      fun e => e.1 == n && e.2.stands x).map Prod.snd =
        if n = name ∧ x = cls.fixity then none else ops.find? n x := by
    rw [List.find?_filter]
    by_cases h : n = name ∧ x = cls.fixity
    · obtain ⟨rfl, rfl⟩ := h
      rw [if_pos ⟨rfl, rfl⟩, Option.map_eq_none_iff, List.find?_eq_none]
      intro e _ hc
      rw [decide_eq_true_eq, Bool.not_eq_true', Bool.eq_false_iff] at hc
      exact hc.1 hc.2
    · rw [if_neg h, find?]
      congr 2
      funext e
      by_cases he : (e.1 == n && e.2.stands x) = true
      · rw [he, decide_eq_true_eq, Bool.not_eq_true', Bool.eq_false_iff]
        refine ⟨fun hc => ?_, rfl⟩
        simp only [OpDef.stands, Bool.and_eq_true, beq_iff_eq] at he hc
        exact h ⟨he.1.symm.trans hc.1, he.2.symm.trans hc.2⟩
      · simp [he]
  unfold add
  dsimp only
  by_cases hpriority : priority = 0
  · rw [if_pos hpriority, find?, hothers]
    simp only [hpriority, if_true]
  · rw [if_neg hpriority, find?, List.find?_cons]
    by_cases h : n = name ∧ x = cls.fixity
    · obtain ⟨rfl, rfl⟩ := h
      simp [OpDef.stands, hpriority]
    · rw [if_neg h]
      rw [if_neg h] at hothers
      have hne : (name == n && OpDef.stands ⟨min priority maxPriority, cls⟩ x) = false := by
        rw [Bool.eq_false_iff]
        intro hc
        simp only [OpDef.stands, Bool.and_eq_true, beq_iff_eq] at hc
        exact h ⟨hc.1.symm, hc.2.symm⟩
      simp only [hne]
      exact hothers

theorem inRange_empty : empty.InRange := by
  constructor
  all_goals
    intro n x d h
    cases h

/-- Defining an operator, with whatever priority, leaves all priorities in their range. -/
theorem InRange.add (h : ops.InRange) (name : String) (priority : Nat) (cls : OpClass) :
    (ops.add name priority cls).InRange := by
  have hd : ∀ n x d, (ops.add name priority cls).find? n x = some d →
      0 < d.priority ∧ d.priority ≤ maxPriority := by
    intro n x d hd
    rw [find?_add] at hd
    split at hd
    · split at hd
      · cases hd
      · next hpriority =>
        cases hd
        have : 0 < maxPriority := by decide
        exact ⟨by show 0 < min priority maxPriority; omega, Nat.min_le_right _ _⟩
    · exact ⟨h.pos n x d hd, h.le_max n x d hd⟩
  exact ⟨fun n x d h => (hd n x d h).1, fun n x d h => (hd n x d h).2⟩

/-! ## Regular tables -/

/-- Only what is found in a table makes it regular. -/
theorem Regular.congr (hr : ops.Regular) (h : ∀ name x, ops'.find? name x = ops.find? name x) :
    ops'.Regular := by
  obtain ⟨⟨h₁, h₂, h₃, h₄, h₅, h₆⟩, ⟨h₇, h₈⟩⟩ := hr
  refine ⟨⟨?_, ?_, ?_, ?_, ?_, ?_⟩, ⟨?_, ?_⟩⟩
  all_goals simpa only [isTrailing, between?, behind?, before?, h]

/-- The brackets are no operators. -/
theorem Regular.isOp_brackets (hr : ops.Regular) (h : name = "[]" ∨ name = "{}") :
    ops.isOp name = false := by
  by_contra hop
  rw [Bool.not_eq_false] at hop
  obtain ⟨x, d, hd⟩ := isOp_iff.1 hop
  obtain ⟨h₁, h₂⟩ := hr.brackets x
  rcases h with rfl | rfl
  · rw [h₁] at hd; cases hd
  · rw [h₂] at hd; cases hd

theorem Regular.not_fits (hr : ops.Regular) {n n' : String} {x x' : Fixity} {d d' : OpDef}
    (hd : ops.find? n x = some d) (hd' : ops.find? n' x' = some d')
    (h : d.priority ≤ d'.leftMax) : ¬ d'.priority ≤ d.rightMax :=
  OpDef.not_fits (hr.pos _ _ _ hd) (hr.pos _ _ _ hd') (hr.unclaimed _ _ _ _ _ _ hd hd') h

/-- What makes a table legible, said of its entries. -/
def LegibleEntries (ops : OpTable) : Prop :=
  (∀ e ∈ ops.entries, e.1 ≠ "[]" ∧ e.1 ≠ "{}") ∧
    (∀ e ∈ ops.entries, e.1 = "," ∨ e.1 = "|" → e.2.stands .between = true ∧ 1000 ≤ e.2.priority) ∧
    ops.isTrailing "-" = false ∧
    ∀ e ∈ ops.entries, ∀ e' ∈ ops.entries,
      (e.2.stands .between = true → e'.2.stands .behind = true → e.1 ≠ e'.1) ∧
        (e.2.priority = e'.2.priority → e.2.rightOpen = true → e'.2.leftOpen = false)

instance : DecidablePred LegibleEntries := fun _ => inferInstanceAs (Decidable (_ ∧ _))

/-- Whether a table is legible can be found out by looking at its entries. -/
theorem legible_of_entries (h : ops.LegibleEntries) : ops.Legible := by
  obtain ⟨hbrackets, hseparator, hminus, hpairs⟩ := h
  have hplace : ∀ d : OpDef, d.stands .between = true →
      d.stands .before = false ∧ d.stands .behind = false := by
    rintro ⟨p, c⟩ hd
    cases c <;> first | exact ⟨rfl, rfl⟩ | cases hd
  refine ⟨fun name => ?_, fun x => ⟨?_, ?_⟩, fun name hn => ⟨?_, ?_⟩, fun name d hn hd => ?_, hminus,
    fun n n' x x' d d' hd hd' => ?_⟩
  · cases hd : ops.between? name with
    | none => exact .inl rfl
    | some d =>
      refine .inr (Option.eq_none_iff_forall_ne_some.2 fun d' hd' => ?_)
      obtain ⟨hm, hx⟩ := mem_of_find? hd
      obtain ⟨hm', hx'⟩ := mem_of_find? hd'
      exact (hpairs _ hm _ hm').1 hx hx' rfl
  · exact Option.eq_none_iff_forall_ne_some.2 fun d hd => (hbrackets _ (mem_of_find? hd).1).1 rfl
  · exact Option.eq_none_iff_forall_ne_some.2 fun d hd => (hbrackets _ (mem_of_find? hd).1).2 rfl
  · refine Option.eq_none_iff_forall_ne_some.2 fun d hd => ?_
    obtain ⟨hm, hx⟩ := mem_of_find? hd
    rw [(hplace d (hseparator _ hm hn).1).1] at hx
    cases hx
  · refine Option.eq_none_iff_forall_ne_some.2 fun d hd => ?_
    obtain ⟨hm, hx⟩ := mem_of_find? hd
    rw [(hplace d (hseparator _ hm hn).1).2] at hx
    cases hx
  · exact (hseparator _ (mem_of_find? hd).1 hn).2
  · exact (hpairs _ (mem_of_find? hd).1 _ (mem_of_find? hd').1).2

/-- The operators of standard Prolog are regular. -/
theorem regular_standard : standard.Regular where
  toLegible := legible_of_entries (by decide +kernel)
  pos n x d h := by
    have hall : ∀ e ∈ standard.entries, 0 < e.2.priority := by decide +kernel
    exact hall _ (mem_of_find? h).1
  le_max n x d h := by
    have hall : ∀ e ∈ standard.entries, e.2.priority ≤ maxPriority := by decide +kernel
    exact hall _ (mem_of_find? h).1

end OpTable

end PrologTerms
