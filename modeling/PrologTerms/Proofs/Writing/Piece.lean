import PrologTerms.Proofs.Writing.Term

/-!
# Pieces stand apart

In a written term no two names, numbers or variables are next to each other: there is always a space,
a bracket, a comma or a bar between them. A term does not begin with a space or a closing bracket, and
only what may follow a term stands behind one. An opening bracket comes right behind the name of a
compound term, and nowhere else right behind a name; a closing one never comes right behind it.
-/

namespace PrologTerms

/-- Brackets that open something. -/
def openers : List Char := ['(', '[', '{']

/-- What may come behind a complete term: closing brackets, the comma and the bar. -/
def closers : List Char := [')', ']', '}', ',', '|']

/-- May a written term begin with the piece? -/
def Piece.opens : Piece → Bool
  | .space => false
  | .punct c => c ∈ openers
  | _ => true

/-- The pieces begin with one that ends the piece before them. -/
def Breaks : List Piece → Prop
  | [] => True
  | .space :: _ => True
  | .punct _ :: _ => True
  | _ => False

/-- The pieces begin with one that may come behind a complete term. -/
def Follows : List Piece → Prop
  | [] => True
  | .space :: _ => True
  | .punct c :: _ => c ∈ closers
  | _ => False

/-- The pieces begin with one that no operand begins with. -/
def Ends : List Piece → Prop
  | [] => True
  | .punct c :: _ => c ∈ closers
  | _ => False

/-- The pieces begin with one that a term may begin with. -/
def Opens (ps : List Piece) : Prop := ∃ q qs, ps = q :: qs ∧ q.opens = true

/-- Every piece stands apart from those before and behind it. -/
def Tidy : List Piece → Prop
  | [] => True
  | .space :: ps => Opens ps ∧ Tidy ps
  | .punct c :: ps => (c ∈ openers ∧ Opens ps ∨ c ∈ closers) ∧ Tidy ps
  | .functor _ :: ps => (∃ qs, ps = .punct '(' :: qs) ∧ Tidy ps
  | _ :: ps => Follows ps ∧ Tidy ps

variable {ops : OpTable} {k : List Piece} {name : String}

theorem Follows.breaks (h : Follows k) : Breaks k := by
  unfold Follows at h
  split at h <;> trivial

theorem Ends.follows (h : Ends k) : Follows k := by
  unfold Ends at h
  split at h <;> trivial

theorem Tidy.tail {p : Piece} (h : Tidy (p :: k)) : Tidy k := by
  cases p with
  | _ => exact h.2

theorem Tidy.mem_punct {c : Char} (h : Tidy (.punct c :: k)) : c ∈ openers ++ closers :=
  List.mem_append.2 (h.1.imp And.left id)

/-- A name, a number or a variable ends where the next piece begins. -/
theorem Tidy.breaks {p : Piece} (h : Tidy (p :: k)) (hs : p ≠ .space) (hp : ∀ c, p ≠ .punct c) :
    Breaks k := by
  cases p with
  | space => exact absurd rfl hs
  | punct c => exact absurd rfl (hp c)
  | functor name =>
    obtain ⟨qs, rfl⟩ := h.1
    trivial
  | _ => exact h.1.breaks

namespace Tree

variable {p : Place} {t : Tree}

/-- A term begins with a piece that does not depend on what comes behind it. In front of the operand
of an operator it is no atom that can only be an operator behind an operand. -/
def BeginsWith (ops : OpTable) (t : Tree) (p : Place) (q : Piece) : Prop :=
  q.opens = true ∧ (p.isOperand = true → ∀ name, q = .atom name → ops.isTrailing name = false) ∧
    ∀ k, ∃ ps, t.write ops p k = q :: ps

theorem begins_bracketed {needed : Bool} {inner : List Piece → List Piece} {q : Piece}
    (h : ∀ k, ∃ ps, inner k = q :: ps) :
    ∀ k, ∃ ps, bracketed needed inner k = (if needed then .punct '(' else q) :: ps := by
  intro k
  cases needed with
  | true => exact ⟨_, rfl⟩
  | false => exact h k

/-- An operator with its operands begins with a bracket or with what comes first in it. -/
theorem exists_begins_bracketed {needed : Bool} {inner : List Piece → List Piece} {q : Piece}
    (hw : ∀ k, t.write ops p k = bracketed needed inner k) (hq : q.opens = true)
    (hop : p.isOperand = true → needed = false → ∀ name, q = .atom name → ops.isTrailing name = false)
    (h : ∀ k, ∃ ps, inner k = q :: ps) : ∃ q, t.BeginsWith ops p q := by
  refine ⟨_, ?_, ?_, fun k => hw k ▸ begins_bracketed h k⟩
  · cases needed with
    | true => rfl
    | false => exact hq
  · intro hp name e
    cases needed with
    | true => cases e
    | false => exact hop hp rfl name e

/-- Every written term begins with a piece. -/
theorem exists_beginsWith (ht : t.Proper) (p : Place) (hp : p ≠ .tail) :
    ∃ q, t.BeginsWith ops p q := by
  revert p
  refine Proper.induction ops ?var ?int ?big ?global ?atom ?curly ?before ?behind ?list ?between ?call
    ht
  case var =>
    intro i p hp
    exact ⟨.var i, rfl, by simp, fun k => ⟨k, write_var hp i⟩⟩
  case int =>
    intro n p hp
    exact ⟨.int n, rfl, by simp, fun k => ⟨k, write_int hp n⟩⟩
  case big =>
    intro n p hp
    exact ⟨.functor "$big", rfl, by simp, fun k => ⟨_, write_big hp n⟩⟩
  case global =>
    intro n p hp
    exact ⟨.functor "$gbl", rfl, by simp, fun k => ⟨_, write_global hp n⟩⟩
  case atom =>
    intro name p hp
    refine exists_begins_bracketed (fun k => write_atom hp name) (q := .atom name) rfl ?_
      fun k => ⟨k, rfl⟩
    intro hpo hn name' e
    cases e
    rw [hpo, Bool.true_and] at hn
    exact OpTable.isTrailing_of_not_isOp hn
  case curly =>
    intro a _ _ p hp
    exact ⟨.punct '{', rfl, by simp, fun k => ⟨_, write_curly hp⟩⟩
  case before =>
    intro name d a hname hd _ _ p hp
    refine exists_begins_bracketed (fun k => write_before hp hname hd) (q := .atom name) rfl ?_
      fun k => ⟨_, rfl⟩
    intro _ _ name' e
    cases e
    exact OpTable.isTrailing_of_before? hd
  case behind =>
    intro name d a hname hb hd _ ih p hp
    obtain ⟨q, hq, hop, h⟩ := ih (.operand d.leftMax) (by simp)
    exact exists_begins_bracketed (fun k => write_behind hp hname hb hd) hq
      (fun _ _ => hop rfl) fun k => h _
  case list =>
    intro a b _ _ _ _ p hp
    exact ⟨.punct '[', rfl, by simp, fun k => ⟨_, write_list hp⟩⟩
  case between =>
    intro name d a b hname hd _ _ ih _ p hp
    obtain ⟨q, hq, hop, h⟩ := ih (.operand d.leftMax) (by simp)
    exact exists_begins_bracketed (fun k => write_between hp hname hd) hq
      (fun _ _ => hop rfl) fun k => h _
  case call =>
    intro name args h _ _ p hp
    exact ⟨.functor name, rfl, by simp, fun k => ⟨_, write_call hp h⟩⟩

theorem Proper.opens (ht : t.Proper) (hp : p ≠ .tail) (k : List Piece) :
    Opens (t.write ops p k) := by
  obtain ⟨q, hq, -, h⟩ := exists_beginsWith ht p hp
  obtain ⟨qs, e⟩ := h k
  exact ⟨q, qs, e, hq⟩

/-! ## Written terms are tidy -/

/-- Written in front of tidy pieces the term makes tidy pieces. -/
def TidyTerm (ops : OpTable) (t : Tree) : Prop :=
  ∀ p : Place, p ≠ .tail → ∀ k, Follows k → Tidy k → Tidy (t.write ops p k)

/-- The same of the tail of a list. -/
def TidyTail (ops : OpTable) (t : Tree) : Prop :=
  ∀ k, Ends k → Tidy k → Tidy (t.write ops .tail k)

/-- The tail of a list begins with a comma, a bar, or what comes behind it. -/
theorem ends_tail (ht : t.Proper) (hk : Ends k) : Ends (t.write ops .tail k) := by
  by_cases hl : t.IsList
  · rcases hl with rfl | ⟨a, b, rfl⟩
    · rw [write_tail_nil]
      exact hk
    · rw [write_tail_list]
      simp [comma, Ends, closers]
  · rw [write_tail ht hl]
    simp [Ends, closers]

theorem tidy_close {c : Char} (hc : c ∈ closers) (hk : Tidy k) : Tidy (.punct c :: k) := ⟨.inr hc, hk⟩

theorem tidy_open {c : Char} (hc : c ∈ openers) (ht : Opens k) (hk : Tidy k) : Tidy (.punct c :: k) :=
  ⟨.inl ⟨hc, ht⟩, hk⟩

theorem tidy_bracketed {needed : Bool} {inner : List Piece → List Piece} (hopens : ∀ k, Opens (inner k))
    (h : ∀ k, Follows k → Tidy k → Tidy (inner k)) (hf : Follows k) (hk : Tidy k) :
    Tidy (bracketed needed inner k) := by
  cases needed with
  | true =>
    have hinner := h (.punct ')' :: k) (by simp [Follows, closers]) (tidy_close (by decide) hk)
    exact tidy_open (by decide) (hopens _) hinner
  | false => exact h k hf hk

theorem tidy_comma (ht : Opens k) (hk : Tidy k) : Ends (comma k) ∧ Tidy (comma k) :=
  ⟨by simp [comma, Ends, closers], .inr (by decide), ht, hk⟩

theorem tidy_betweenOperands (name : String) (ht : Opens k) (hk : Tidy k) :
    Follows (betweenOperands name k) ∧ Tidy (betweenOperands name k) := by
  unfold betweenOperands
  split
  · exact ⟨(tidy_comma ht hk).1.follows, (tidy_comma ht hk).2⟩
  · exact ⟨trivial, ⟨_, _, rfl, rfl⟩, trivial, ht, hk⟩

theorem tidy_writeArgs {args : List Tree} (hargs : ∀ t ∈ args, t.Proper)
    (h : ∀ t ∈ args, t.TidyTerm ops) (hne : args ≠ []) (hf : Follows k) (hk : Tidy k) :
    Tidy (writeArgs ops args k) ∧ Opens (writeArgs ops args k) := by
  induction args with
  | nil => exact absurd rfl hne
  | cons t ts ih =>
    have hw := hargs t List.mem_cons_self
    have ht := h t List.mem_cons_self .argument (by decide)
    cases ts with
    | nil => exact ⟨ht k hf hk, hw.opens (by decide) k⟩
    | cons u us =>
      obtain ⟨h₁, h₂⟩ := ih (fun t ht => hargs t (List.mem_cons_of_mem _ ht))
        (fun t ht => h t (List.mem_cons_of_mem _ ht)) (by simp)
      obtain ⟨h₃, h₄⟩ := tidy_comma h₂ h₁
      exact ⟨ht _ h₃.follows h₄, hw.opens (by decide) _⟩

theorem tidy_standIn (n : Nat) (hk : Tidy k) :
    Tidy (.functor name :: .punct '(' :: .int n :: .punct ')' :: k) :=
  ⟨⟨_, rfl⟩, tidy_open (by decide) ⟨_, _, rfl, rfl⟩
    ⟨by simp [Follows, closers], tidy_close (by decide) hk⟩⟩

/-- A written term is tidy, and so is the written tail of a list. -/
theorem Proper.tidy (ht : t.Proper) : t.TidyTerm ops ∧ t.TidyTail ops := by
  refine Proper.tail_induction ops ?var ?int ?big ?global ?atom ?curly ?before ?behind ?list ?between
    ?call ?tail_nil ?tail_list ?tail ht
  case var =>
    intro i p hp k hf hk
    rw [write_var hp]
    exact ⟨hf, hk⟩
  case int =>
    intro n p hp k hf hk
    rw [write_int hp]
    exact ⟨hf, hk⟩
  case big =>
    intro n p hp k hf hk
    rw [write_big hp]
    exact tidy_standIn n hk
  case global =>
    intro n p hp k hf hk
    rw [write_global hp]
    exact tidy_standIn n hk
  case atom =>
    intro name p hp k hf hk
    rw [write_atom hp]
    exact tidy_bracketed (fun k => ⟨_, _, rfl, rfl⟩) (fun k hf hk => ⟨hf, hk⟩) hf hk
  case curly =>
    intro a hw ih p hp k hf hk
    rw [write_curly hp]
    refine tidy_open (by decide) (hw.opens (by simp) _) ?_
    exact ih .whole (by simp) _ (by simp [Follows, closers]) (tidy_close (by decide) hk)
  case before =>
    intro name d a hname hd hw ih p hp k hf hk
    rw [write_before hp hname hd]
    refine tidy_bracketed (fun k => ⟨_, _, rfl, rfl⟩)
      (fun k hf hk => ⟨trivial, ?_, ih _ (by simp) k hf hk⟩) hf hk
    exact hw.opens (by simp) k
  case behind =>
    intro name d a hname hb hd hw ih p hp k hf hk
    rw [write_behind hp hname hb hd]
    refine tidy_bracketed (fun k => hw.opens (by simp) _) (fun k hf hk => ?_) hf hk
    exact ih _ (by simp) _ trivial ⟨⟨_, _, rfl, rfl⟩, hf, hk⟩
  case list =>
    intro a b hwa hwb iha ihb p hp k hf hk
    rw [write_list hp]
    have hclose : Ends (.punct ']' :: k) := by simp [Ends, closers]
    have htail := ihb (.punct ']' :: k) hclose (tidy_close (by decide) hk)
    refine tidy_open (by decide) (hwa.opens (by simp) _) ?_
    exact iha .argument (by simp) _ (ends_tail hwb hclose).follows htail
  case between =>
    intro name d a b hname hd hwa hwb iha ihb p hp k hf hk
    rw [write_between hp hname hd]
    refine tidy_bracketed (fun k => hwa.opens (by simp) _) (fun k hf hk => ?_) hf hk
    have hb := ihb (.operand d.rightMax) (by simp) k hf hk
    obtain ⟨h₁, h₂⟩ := tidy_betweenOperands name (hwb.opens (by simp) k) hb
    exact iha _ (by simp) _ h₁ h₂
  case call =>
    intro name args h hw ih p hp k hf hk
    rw [write_call hp h]
    obtain ⟨hargs, hopens⟩ := tidy_writeArgs (k := .punct ')' :: k) hw ih h.ne_nil
      (by simp [Follows, closers]) (tidy_close (by decide) hk)
    exact ⟨⟨_, rfl⟩, tidy_open (by decide) hopens hargs⟩
  case tail_nil =>
    intro k hf hk
    rw [write_tail_nil]
    exact hk
  case tail_list =>
    intro a b hwa hwb iha ihb k hf hk
    rw [write_tail_list]
    have htail := iha .argument (by simp) _ (ends_tail hwb hf).follows (ihb k hf hk)
    exact (tidy_comma (hwa.opens (by simp) _) htail).2
  case tail =>
    intro t ht hl ih k hf hk
    rw [write_tail ht hl]
    exact tidy_close (by decide) (ih .argument (by simp) k hf.follows hk)

end Tree

end PrologTerms
