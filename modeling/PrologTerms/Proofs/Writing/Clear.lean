import PrologTerms.Proofs.Reading.Meaning
import PrologTerms.Proofs.Reading.Weight
import PrologTerms.Proofs.Writing.Spelling

/-!
# Where reading parts from writing

A prefix operator is read as an atom if what comes next is an operator that only stands behind an
operand, even where that name is the functor of the operand. Such a term is not clear: reading it gains
a leaf. All other forms are read as they were written.
-/

namespace PrologTerms

/-- Do the pieces begin with a functor that no operand is expected to begin with? -/
def startsTrailing (ops : OpTable) : List Piece → Bool
  | .functor f :: _ => ops.isTrailing f
  | _ => false

namespace Tree

/-- Is the tree no prefix operator in front of a functor that no operand is expected to begin with? -/
def clearPart (ops : OpTable) : Tree → Bool
  | .compound name [a] =>
    match ops.before? name with
    | some d => name == "{}" || !startsTrailing ops (a.write ops (.operand d.rightMax) [])
    | none => true
  | _ => true

/-- No prefix operator in the tree is in front of a functor that no operand is expected to begin
with. -/
def Clear (ops : OpTable) (t : Tree) : Prop := t.Everywhere fun u => clearPart ops u = true

instance (ops : OpTable) : DecidablePred (Clear ops) :=
  fun t => inferInstanceAs (Decidable (t.Everywhere _))

variable {ops : OpTable} {name : String} {args : List Tree} {t a b : Tree} {d : OpDef}

theorem clear_compound : (compound name args).Clear ops ↔
    clearPart ops (.compound name args) = true ∧ ∀ t ∈ args, t.Clear ops := everywhere_compound

/-- Only prefix operators can make a term unclear, apart from its arguments. -/
theorem clear_iff_of_before? (h : ∀ a, args = [a] → name = "{}" ∨ ops.before? name = none) :
    (compound name args).Clear ops ↔ ∀ t ∈ args, t.Clear ops := by
  have hpart : clearPart ops (.compound name args) = true := by
    unfold clearPart
    split
    · next e =>
      cases e
      rcases h _ rfl with h | h
      · rw [h]
        split <;> rfl
      · rw [h]
    · rfl
  rw [clear_compound]
  exact and_iff_right hpart

theorem clear_two : (compound name [a, b]).Clear ops ↔ a.Clear ops ∧ b.Clear ops := by
  rw [clear_iff_of_before? (by simp)]
  simp

theorem clear_one (h : name = "{}" ∨ ops.before? name = none) :
    (compound name [a]).Clear ops ↔ a.Clear ops := by
  rw [clear_iff_of_before? fun _ _ => h]
  simp

/-- What an operand begins with tells whether the prefix operator before it is clear. -/
theorem clearPart_iff {q : Piece} (hname : name ≠ "{}") (hd : ops.before? name = some d)
    (hq : a.BeginsWith ops (.operand d.rightMax) q) : clearPart ops (.compound name [a]) = true ↔
      ∀ f, q = .functor f → ops.isTrailing f = false := by
  obtain ⟨ps, hps⟩ := hq.2.2 []
  have hbeq : (name == "{}") = false := beq_eq_false_iff_ne.2 hname
  rw [clearPart, hd]
  dsimp only
  rw [hps, hbeq, Bool.false_or, Bool.not_eq_true']
  cases q with
  | functor f => simp [startsTrailing]
  | _ => simp [startsTrailing]

/-! ### Operators in operator form -/

/-- Is the tree no compound term that has the name of an operator for other places than in front, but
not the operands? -/
def inFormPart (ops : OpTable) : Tree → Bool
  | .compound name args => !ops.isTrailing name || ((ops.between? name).isSome && args.length == 2) ||
      ((ops.behind? name).isSome && args.length == 1)
  | _ => true

/-- Every compound term in the tree whose name only stands between or behind operands is written as
the operator. -/
def TrailingInForm (ops : OpTable) (t : Tree) : Prop := t.Everywhere fun u => inFormPart ops u = true

instance (ops : OpTable) : DecidablePred (TrailingInForm ops) :=
  fun t => inferInstanceAs (Decidable (t.Everywhere _))

/-- What is written in functional notation and in form does not have such a name. -/
theorem IsCall.not_isTrailing (hc : IsCall ops name args)
    (h : inFormPart ops (.compound name args) = true) : ops.isTrailing name = false := by
  rw [inFormPart, Bool.or_eq_true, Bool.or_eq_true, Bool.and_eq_true, Bool.and_eq_true, beq_iff_eq,
    beq_iff_eq] at h
  rcases h with (h | ⟨hd, hlen⟩) | ⟨hd, hlen⟩
  · simpa using h
  · obtain ⟨a, b, rfl⟩ := List.length_eq_two.1 hlen
    rw [(hc.two a b rfl).2] at hd
    cases hd
  · obtain ⟨a, rfl⟩ := List.length_eq_one_iff.1 hlen
    rw [(hc.one a rfl).2.2] at hd
    cases hd

theorem startsTrailing_bracketed {needed : Bool} {inner : List Piece → List Piece} {k : List Piece}
    (h : ∀ k, startsTrailing ops (inner k) = false) :
    startsTrailing ops (bracketed needed inner k) = false := by
  cases needed with
  | true => rfl
  | false => exact h k

/-- A term in form begins with no functor that no operand is expected to begin with. -/
theorem TrailingInForm.startsTrailing (hw : t.Writable) (h : t.TrailingInForm ops) {p : Place}
    (hp : p ≠ .tail) (k : List Piece) : startsTrailing ops (t.write ops p k) = false := by
  revert h p k
  refine Writable.induction ops ?var ?int ?atom ?curly ?before ?behind ?list ?between ?call hw
  case var =>
    intro i _ p hp k
    rw [write_var hp]
    rfl
  case int =>
    intro n _ _ p hp k
    rw [write_int hp]
    rfl
  case atom =>
    intro name _ p hp k
    rw [write_atom hp]
    exact startsTrailing_bracketed fun k => rfl
  case curly =>
    intro a _ _ _ p hp k
    rw [write_curly hp]
    rfl
  case before =>
    intro name d a hname hd _ _ _ p hp k
    rw [write_before hp hname hd]
    exact startsTrailing_bracketed fun k => rfl
  case behind =>
    intro name d a hname hb hd _ ih h p hp k
    rw [write_behind hp hname hb hd]
    have ha := (everywhere_compound.1 h).2 a List.mem_cons_self
    exact startsTrailing_bracketed fun k => ih ha (by simp) _
  case list =>
    intro a b _ _ _ _ _ p hp k
    rw [write_list hp]
    rfl
  case between =>
    intro name d a b hname hd _ _ ih _ h p hp k
    rw [write_between hp hname hd]
    have ha := (everywhere_compound.1 h).2 a List.mem_cons_self
    exact startsTrailing_bracketed fun k => ih ha (by simp) _
  case call =>
    intro name args hc _ _ h p hp k
    rw [write_call hp hc]
    exact hc.not_isTrailing (everywhere_compound.1 h).1

/-- A term is clear if every operator in it that can be in operator form is. -/
theorem TrailingInForm.clear (hw : t.Writable) (h : t.TrailingInForm ops) : t.Clear ops := by
  induction t using Tree.induction with
  | compound name args ih =>
    have hargs := (everywhere_compound.1 h).2
    have hwargs := (everywhere_compound.1 hw).2
    refine clear_compound.2 ⟨?_, fun t ht => ih t ht (hwargs t ht) (hargs t ht)⟩
    unfold clearPart
    split
    · next e =>
      cases e
      have ha : TrailingInForm ops _ := hargs _ List.mem_cons_self
      have hwa := hwargs _ List.mem_cons_self
      split
      · rw [ha.startsTrailing hwa (by simp), Bool.not_false, Bool.or_true]
      · rfl
    · rfl
  | _ => rfl

end Tree

/-! ## Reading that goes on or gains a leaf -/

namespace Grammar

variable {g : Grammar} {C C' : Prop} {s s' : ReadState} {G G' : ReadState → Prop}

/-- From the state the reading comes to one with more leaves. -/
def Gains (g : Grammar) (s : ReadState) : Prop :=
  ∃ s', g.Goes s s' ∧ s.leaves g.ops < s'.leaves g.ops

/-- From the state the reading comes to one as `G` says, if `C` holds, and otherwise gains a leaf. -/
def Leads (g : Grammar) (C : Prop) (s : ReadState) (G : ReadState → Prop) : Prop :=
  (C → ∃ s', g.Goes s s' ∧ G s') ∧ (¬ C → g.Gains s)

theorem Gains.of_goes (hr : g.ops.Regular) (h : g.Goes s s') (h' : g.Gains s') : g.Gains s := by
  obtain ⟨s'', hgoes, hlt⟩ := h'
  exact ⟨s'', h.trans hgoes, Nat.lt_of_le_of_lt (h.leaves_le hr) hlt⟩

theorem leads_of_goes (hC : C) (h : g.Goes s s') (hG : G s') : g.Leads C s G :=
  ⟨fun _ => ⟨s', h, hG⟩, fun hn => absurd hC hn⟩

theorem Leads.of_goes (hr : g.ops.Regular) (h : g.Goes s s') (h' : g.Leads C s' G) :
    g.Leads C s G := by
  refine ⟨fun hC => ?_, fun hC => (h'.2 hC).of_goes hr h⟩
  obtain ⟨s'', hgoes, hG⟩ := h'.1 hC
  exact ⟨s'', h.trans hgoes, hG⟩

theorem Leads.congr (hC : C' ↔ C) (h : g.Leads C s G) : g.Leads C' s G :=
  ⟨fun h' => h.1 (hC.1 h'), fun h' => h.2 fun h'' => h' (hC.2 h'')⟩

/-- Two stretches of reading, one behind the other. -/
theorem Leads.and_then (hr : g.ops.Regular) (h : g.Leads C s G)
    (h' : ∀ s', G s' → g.Leads C' s' G') : g.Leads (C ∧ C') s G' := by
  by_cases hC : C
  · obtain ⟨s', hgoes, hG⟩ := h.1 hC
    exact Leads.of_goes hr hgoes ((h' s' hG).congr (and_iff_right hC))
  · exact ⟨fun hand => absurd hand.1 hC, fun _ => h.2 hC⟩

/-- A stretch of reading with some steps behind it. -/
theorem Leads.finish (h : g.Leads C s G) (h' : ∀ s', G s' → ∃ s'', g.Goes s' s'' ∧ G' s'') :
    g.Leads C s G' := by
  refine ⟨fun hC => ?_, h.2⟩
  obtain ⟨s', hgoes, hG⟩ := h.1 hC
  obtain ⟨s'', hgoes', hG'⟩ := h' s' hG
  exact ⟨s'', hgoes.trans hgoes', hG'⟩

end Grammar

end PrologTerms
