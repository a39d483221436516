import PrologTerms.Proofs.Writing.Piece

/-!
# Operations as rows

An operation is a term that is written as an operator with its operands. Where no brackets are needed,
the operands stand in a row with the operator, and so do their own operands, so that an operation is
written as a row of operators and terms on their own.
-/

namespace PrologTerms

/-- The operator as which a name is written at a place. Lists and terms in curly brackets are no
operations, and an operator that can stand before its operand is not written behind it. -/
def OpTable.written? (ops : OpTable) : Fixity → String → Option OpDef
  | .before, name => if name = "{}" then none else ops.before? name
  | .between, name => if name = "." then none else ops.between? name
  | .behind, name => if name = "{}" ∨ (ops.before? name).isSome then none else ops.behind? name

namespace OpTable

variable {ops : OpTable} {name : String} {d : OpDef}

theorem written?_before_iff :
    ops.written? .before name = some d ↔ name ≠ "{}" ∧ ops.before? name = some d := by
  show (if name = "{}" then none else ops.before? name) = some d ↔ _
  split <;> simp_all

theorem written?_between_iff :
    ops.written? .between name = some d ↔ name ≠ "." ∧ ops.between? name = some d := by
  show (if name = "." then none else ops.between? name) = some d ↔ _
  split <;> simp_all

theorem written?_behind_iff : ops.written? .behind name = some d ↔
    name ≠ "{}" ∧ ops.before? name = none ∧ ops.behind? name = some d := by
  show (if name = "{}" ∨ (ops.before? name).isSome then none else ops.behind? name) = some d ↔ _
  split
  · next h =>
    rcases h with h | h
    · simp [h]
    · obtain ⟨d', h⟩ := Option.isSome_iff_exists.1 h
      simp [h]
  · next h => simp_all

theorem written?_before_of_behind (h : ops.written? .behind name = some d) :
    ops.written? .before name = none := by
  obtain ⟨-, hb, -⟩ := written?_behind_iff.1 h
  refine Option.eq_none_iff_forall_ne_some.2 fun d' hd' => ?_
  rw [(written?_before_iff.1 hd').2] at hb
  cases hb

/-- What is written as an operator is one. -/
theorem find?_of_written? {x : Fixity} (h : ops.written? x name = some d) :
    ops.find? name x = some d := by
  cases x with
  | before => exact (written?_before_iff.1 h).2
  | between => exact (written?_between_iff.1 h).2
  | behind => exact (written?_behind_iff.1 h).2.2

end OpTable

/-- A part of a row. -/
inductive Item
  /-- An operator. -/
  | op (x : Fixity) (name : String) (d : OpDef)
  /-- A term on its own, in brackets if it is an operator or an operation. -/
  | term (t : Tree)

namespace Item

/-- Does an operand come before the item? -/
def hasLeft : Item → Bool
  | .op .before _ _ => false
  | .op _ _ _ => true
  | .term _ => false

/-- Does an operand come behind the item? -/
def hasRight : Item → Bool
  | .op .behind _ _ => false
  | .op _ _ _ => true
  | .term _ => false

/-- The priority of an operator; that of a term on its own is the lowest one. -/
def priority : Item → Nat
  | .op _ _ d => d.priority
  | .term _ => 0

/-- The highest priority before the item. -/
def leftMax : Item → Nat
  | .op _ _ d => d.leftMax
  | .term _ => 0

/-- The highest priority behind the item. -/
def rightMax : Item → Nat
  | .op _ _ d => d.rightMax
  | .term _ => 0

/-- The operator is one of the table, and the term can be written. -/
def Found (ops : OpTable) : Item → Prop
  | .op x name d => ops.written? x name = some d
  | .term t => t.Writable

/-- If one of the items is the operator and the other one is or begins its operand, then the priority
is low enough. -/
def Suits (i j : Item) : Prop :=
  (j.hasLeft = true → i.priority ≤ j.leftMax) ∧ (i.hasRight = true → j.priority ≤ i.rightMax)

/-- Writes an item in front of the pieces `k`. -/
def write (ops : OpTable) : Item → List Piece → List Piece
  | .op .before name _, k => .atom name :: .space :: k
  | .op .between name _, k => Tree.betweenOperands name k
  | .op .behind name _, k => .space :: .atom name :: k
  | .term t, k => t.write ops (.operand 0) k

end Item

/-- Writes a row in front of the pieces `k`. -/
def writeRow (ops : OpTable) (row : List Item) (k : List Piece) : List Piece :=
  row.foldr (Item.write ops) k

/-- Operators and operands take turns as they should, beginning with an operand or behind one. -/
def RowFrom (ops : OpTable) : (operandNext : Bool) → List Item → Prop
  | b, [] => b = false
  | b, i :: row => i.hasLeft = !b ∧ i.Found ops ∧ (∀ j ∈ row.head?, i.Suits j) ∧
      RowFrom ops i.hasRight row

variable {ops : OpTable} {is js : List Item} {i j : Item} {b : Bool} {k : List Piece}

theorem writeRow_cons : writeRow ops (i :: is) k = i.write ops (writeRow ops is k) := rfl

theorem writeRow_append : writeRow ops (is ++ js) k = writeRow ops is (writeRow ops js k) :=
  List.foldr_append

/-- An operator behind an operand goes on with the row. -/
theorem RowFrom.append (h : RowFrom ops b is) (h' : RowFrom ops false (i :: js))
    (hle : ∀ j ∈ is, j.priority ≤ i.leftMax) : RowFrom ops b (is ++ i :: js) := by
  induction is generalizing b with
  | nil =>
    cases (h : b = false)
    exact h'
  | cons j is ih =>
    obtain ⟨hleft, hfound, hsuits, hrow⟩ := h
    have hle' : ∀ j ∈ is, j.priority ≤ i.leftMax := fun j hj => hle j (List.mem_cons_of_mem _ hj)
    refine ⟨hleft, hfound, ?_, ih hrow hle'⟩
    cases is with
    | nil =>
      intro j' hj'
      cases hj'
      refine ⟨fun _ => hle j List.mem_cons_self, fun hright => ?_⟩
      rw [(hrow : j.hasRight = false)] at hright
      cases hright
    | cons j' is => exact hsuits

theorem RowFrom.found (h : RowFrom ops b is) : ∀ i ∈ is, i.Found ops := by
  induction is generalizing b with
  | nil => simp
  | cons i is ih =>
    intro j hj
    rcases List.mem_cons.1 hj with rfl | hj
    · exact h.2.1
    · exact ih h.2.2.2 j hj

namespace Tree

/-- The term is written as the operator with these operands before and behind it. -/
inductive IsOperation (ops : OpTable) :
    Tree → List Tree → Fixity → String → OpDef → List Tree → Prop
  /-- The operator comes before its operand. -/
  | before {name : String} {d : OpDef} {a : Tree} (h : ops.written? .before name = some d) :
      IsOperation ops (.compound name [a]) [] .before name d [a]
  /-- The operator comes behind its operand. -/
  | behind {name : String} {d : OpDef} {a : Tree} (h : ops.written? .behind name = some d) :
      IsOperation ops (.compound name [a]) [a] .behind name d []
  /-- The operator comes between its operands. -/
  | between {name : String} {d : OpDef} {a a' : Tree} (h : ops.written? .between name = some d) :
      IsOperation ops (.compound name [a, a']) [a] .between name d [a']

/-- The row as which a term is written beside an operator that allows at most the priority `m`. -/
def row (ops : OpTable) : Tree → (m : Nat) → List Item
  | .compound name [a], m =>
    match ops.written? .before name, ops.written? .behind name with
    | some d, _ =>
      if m < d.priority then [.term (.compound name [a])]
      else .op .before name d :: a.row ops d.rightMax
    | none, some d =>
      if m < d.priority then [.term (.compound name [a])]
      else a.row ops d.leftMax ++ [.op .behind name d]
    | none, none => [.term (.compound name [a])]
  | .compound name [a, a'], m =>
    match ops.written? .between name with
    | some d =>
      if m < d.priority then [.term (.compound name [a, a'])]
      else a.row ops d.leftMax ++ .op .between name d :: a'.row ops d.rightMax
    | none => [.term (.compound name [a, a'])]
  | t, _ => [.term t]

variable {t u : Tree} {ls rs : List Tree} {x : Fixity} {name : String} {d : OpDef} {m : Nat}
  {p : Place}

namespace IsOperation

theorem eq_compound (h : IsOperation ops t ls x name d rs) : t = .compound name (ls ++ rs) := by
  cases h <;> rfl

theorem written (h : IsOperation ops t ls x name d rs) : ops.written? x name = some d := by
  cases h <;> assumption

theorem size_lt (h : IsOperation ops t ls x name d rs) : ∀ a ∈ ls ++ rs, a.size < t.size := by
  rw [h.eq_compound]
  exact fun a ha => size_lt_of_mem ha

theorem writable (h : IsOperation ops t ls x name d rs) (ht : t.Writable) :
    ∀ a ∈ ls ++ rs, a.Writable := by
  rw [h.eq_compound] at ht
  exact (everywhere_compound.1 ht).2

end IsOperation

/-- The row of an operation is made of those of its operands. -/
theorem row_of_isOperation (h : IsOperation ops t ls x name d rs) (m : Nat) : t.row ops m =
    if m < d.priority then [.term t]
    else ls.flatMap (fun a => a.row ops d.leftMax) ++ .op x name d ::
      rs.flatMap (fun a => a.row ops d.rightMax) := by
  cases h with
  | before h => simp [row, h]
  | behind h => simp [row, h, OpTable.written?_before_of_behind h]
  | between h => simp [row, h]

/-- All other terms are written on their own. -/
theorem row_of_not_isOperation (h : ∀ ls x name d rs, ¬ IsOperation ops t ls x name d rs) (m : Nat) :
    t.row ops m = [.term t] := by
  unfold row
  split
  · split
    · next hd => exact absurd (.before hd) (h _ _ _ _ _)
    · next hd => exact absurd (.behind hd) (h _ _ _ _ _)
    · rfl
  · split
    · next hd => exact absurd (.between hd) (h _ _ _ _ _)
    · rfl
  · rfl

/-- A row is no more than the term on its own if brackets are needed, and goes on with operators
otherwise. -/
theorem row_cases (t : Tree) (m : Nat) : t.row ops m = [.term t] ∨
    ∃ ls x name d rs, IsOperation ops t ls x name d rs ∧ d.priority ≤ m ∧ t.row ops m =
      ls.flatMap (fun a => a.row ops d.leftMax) ++ .op x name d ::
        rs.flatMap (fun a => a.row ops d.rightMax) := by
  by_cases h : ∃ ls x name d rs, IsOperation ops t ls x name d rs
  · obtain ⟨ls, x, name, d, rs, h⟩ := h
    have hrow := row_of_isOperation h m
    by_cases hm : m < d.priority
    · rw [if_pos hm] at hrow
      exact .inl hrow
    · rw [if_neg hm] at hrow
      exact .inr ⟨ls, x, name, d, rs, h, Nat.le_of_not_lt hm, hrow⟩
  · exact .inl (row_of_not_isOperation (fun ls x name d rs h' => h ⟨ls, x, name, d, rs, h'⟩) m)

/-- No priority in a row is too high for its place, and its terms are parts of the whole. -/
theorem mem_row (t : Tree) : ∀ m, ∀ i ∈ t.row ops m, i.priority ≤ m ∧
    ∀ u, i = .term u → u.size ≤ t.size := by
  induction hn : t.size using Nat.strongRecOn generalizing t with
  | _ n ih =>
    subst hn
    intro m i hi
    rcases @row_cases ops t m with hrow | ⟨ls, x, name, d, rs, hop, hm, hrow⟩
    · rw [hrow, List.mem_singleton] at hi
      subst hi
      refine ⟨Nat.zero_le m, fun u hu => ?_⟩
      cases hu
      exact Nat.le_refl _
    · have hpart : ∀ a ∈ ls ++ rs, ∀ m', m' ≤ d.priority → i ∈ a.row ops m' →
          i.priority ≤ m ∧ ∀ u, i = .term u → u.size ≤ t.size := by
        intro a ha m' hm' hi
        have hlt := hop.size_lt a ha
        obtain ⟨h₁, h₂⟩ := ih a.size hlt a rfl m' i hi
        exact ⟨by omega, fun u hu => Nat.le_of_lt (Nat.lt_of_le_of_lt (h₂ u hu) hlt)⟩
      rw [hrow] at hi
      rcases List.mem_append.1 hi with hi | hi
      · obtain ⟨a, ha, hi⟩ := List.mem_flatMap.1 hi
        exact hpart a (List.mem_append_left rs ha) _ d.leftMax_le hi
      · rcases List.mem_cons.1 hi with rfl | hi
        · exact ⟨hm, fun u hu => by cases hu⟩
        · obtain ⟨a, ha, hi⟩ := List.mem_flatMap.1 hi
          exact hpart a (List.mem_append_right ls ha) _ d.rightMax_le hi

theorem rowFrom_term (ht : t.Writable) : RowFrom ops true [.term t] :=
  ⟨rfl, ht, by simp, rfl⟩

/-- An operator in front of an operand, if there is one, begins the rest of a row. -/
theorem rowFrom_op (hd : ops.written? x name = some d) {is : List Item}
    (his : (x = .behind ∧ is = []) ∨ x ≠ .behind ∧ RowFrom ops true is)
    (hle : ∀ i ∈ is, i.priority ≤ d.rightMax) : RowFrom ops (x == .before) (.op x name d :: is) := by
  have hleft : (Item.op x name d).hasLeft = !(x == .before) := by cases x <;> rfl
  have hright : (Item.op x name d).hasRight = !(x == .behind) := by cases x <;> rfl
  refine ⟨hleft, hd, fun j hj => ⟨fun hj' => ?_, fun _ => hle j (List.mem_of_mem_head? hj)⟩, ?_⟩
  · rcases his with ⟨-, rfl⟩ | ⟨-, his⟩
    · cases hj
    · cases is with
      | nil => cases hj
      | cons i is =>
        cases hj
        rw [his.1] at hj'
        cases hj'
  · rw [hright]
    rcases his with ⟨rfl, rfl⟩ | ⟨hx, his⟩
    · rfl
    · rw [beq_eq_false_iff_ne.2 hx]
      exact his

/-- The row of a term is in order. -/
theorem rowFrom_row (ht : t.Writable) : ∀ m, RowFrom ops true (t.row ops m) := by
  induction hn : t.size using Nat.strongRecOn generalizing t with
  | _ n ih =>
    subst hn
    intro m
    rcases @row_cases ops t m with hrow | ⟨ls, x, name, d, rs, hop, hm, hrow⟩
    · rw [hrow]
      exact rowFrom_term ht
    · have hpart : ∀ a ∈ ls ++ rs, ∀ m', RowFrom ops true (a.row ops m') :=
        fun a ha => ih a.size (hop.size_lt a ha) (hop.writable ht a ha) rfl
      have hd := hop.written
      rw [hrow]
      cases hop with
      | @before _ _ a h =>
        rw [List.flatMap_nil, List.nil_append, List.flatMap_singleton]
        exact rowFrom_op hd (.inr ⟨by decide, hpart a (by simp) _⟩) fun i hi => (mem_row a _ i hi).1
      | @behind _ _ a h =>
        rw [List.flatMap_nil, List.flatMap_singleton]
        refine (hpart a (by simp) _).append (rowFrom_op hd (.inl ⟨rfl, rfl⟩) (by simp)) ?_
        exact fun i hi => (mem_row a _ i hi).1
      | @between _ _ a a' h =>
        rw [List.flatMap_singleton, List.flatMap_singleton]
        refine (hpart a (by simp) _).append (rowFrom_op hd (.inr ⟨by decide, hpart a' (by simp) _⟩)
          fun i hi => (mem_row a' _ i hi).1) ?_
        exact fun i hi => (mem_row a _ i hi).1

/-! ## Writing rows -/

/-- An operation is written as the operator between its operands. -/
theorem write_of_isOperation (h : IsOperation ops t ls x name d rs) (hp : p ≠ .tail) (k : List Piece) :
    t.write ops p k = bracketed (p.max < d.priority) (fun k =>
      ls.foldr (fun a k => a.write ops (.operand d.leftMax) k) ((Item.op x name d).write ops
        (rs.foldr (fun a k => a.write ops (.operand d.rightMax) k) k))) k := by
  cases h with
  | before h =>
    obtain ⟨hname, hd⟩ := OpTable.written?_before_iff.1 h
    rw [write_before hp hname hd]
    rfl
  | behind h =>
    obtain ⟨hname, hb, hd⟩ := OpTable.written?_behind_iff.1 h
    rw [write_behind hp hname hb hd]
    rfl
  | between h =>
    obtain ⟨hname, hd⟩ := OpTable.written?_between_iff.1 h
    rw [write_between hp hname hd]
    rfl

/-- Where a term is written on its own, its place does not matter, unless it is an atom. -/
theorem write_of_not_isOperation (ht : t.Writable)
    (h : ∀ ls x name d rs, ¬ IsOperation ops t ls x name d rs) (hp : p ≠ .tail)
    (ha : p.isOperand = true ∨ ∀ name, t ≠ .atom name) (k : List Piece) :
    t.write ops p k = t.write ops (.operand 0) k := by
  revert h ha
  refine Writable.induction ops ?var ?int ?atom ?curly ?before ?behind ?list ?between ?call ht
  case var =>
    intro i _ _
    rw [write_var hp, write_var (by simp)]
  case int =>
    intro n _ _ _
    rw [write_int hp, write_int (by simp)]
  case atom =>
    intro name _ ha
    rw [write_atom hp, write_atom (by simp), ha.resolve_right fun h => h name rfl]
    rfl
  case curly =>
    intro a _ _ _ _
    rw [write_curly hp, write_curly (by simp)]
  case before =>
    intro name d a hname hd _ _ h _
    exact absurd (.before (OpTable.written?_before_iff.2 ⟨hname, hd⟩)) (h _ _ _ _ _)
  case behind =>
    intro name d a hname hb hd _ _ h _
    exact absurd (.behind (OpTable.written?_behind_iff.2 ⟨hname, hb, hd⟩)) (h _ _ _ _ _)
  case list =>
    intro a a' _ _ _ _ _ _
    rw [write_list hp, write_list (by simp)]
  case between =>
    intro name d a a' hname hd _ _ _ _ h _
    exact absurd (.between (OpTable.written?_between_iff.2 ⟨hname, hd⟩)) (h _ _ _ _ _)
  case call =>
    intro name args hc _ _ _ _
    rw [write_call hp hc, write_call (by simp) hc]

/-- A term that is no mere atom, or that stands beside an operator, is written as its row. -/
theorem write_eq_writeRow (hr : ops.InRange) (ht : t.Writable) : ∀ (p : Place), p ≠ .tail →
    (p.isOperand = true ∨ ∀ name, t ≠ .atom name) → ∀ k,
      t.write ops p k = writeRow ops (t.row ops p.max) k := by
  induction hn : t.size using Nat.strongRecOn generalizing t with
  | _ n ih =>
    subst hn
    intro p hp ha k
    by_cases h : ∃ ls x name d rs, IsOperation ops t ls x name d rs
    · obtain ⟨ls, x, name, d, rs, hop⟩ := h
      have hpos := hr.pos _ _ _ (OpTable.find?_of_written? hop.written)
      rw [write_of_isOperation hop hp, row_of_isOperation hop]
      by_cases hm : p.max < d.priority
      · rw [if_pos hm, decide_eq_true hm]
        have hbrackets := write_of_isOperation hop (p := .operand 0) (by simp) k
        rw [decide_eq_true (show (Place.operand 0).max < d.priority from hpos)] at hbrackets
        exact hbrackets.symm
      · have hpart : ∀ a ∈ ls ++ rs, ∀ m k,
            a.write ops (.operand m) k = writeRow ops (a.row ops m) k := fun a ha m k =>
          ih a.size (hop.size_lt a ha) (hop.writable ht a ha) rfl (.operand m) (by simp) (.inl rfl) k
        have hfold : ∀ as : List Tree, (∀ a ∈ as, a ∈ ls ++ rs) → ∀ m k,
            as.foldr (fun a k => a.write ops (.operand m) k) k =
              writeRow ops (as.flatMap fun a => a.row ops m) k := by
          intro as
          induction as with
          | nil => exact fun _ _ _ => rfl
          | cons a as ihs =>
            intro has m k
            rw [List.foldr_cons, List.flatMap_cons, writeRow_append,
              ihs (fun b hb => has b (List.mem_cons_of_mem a hb)), hpart a (has a List.mem_cons_self)]
        rw [if_neg hm, decide_eq_false hm, writeRow_append, writeRow_cons,
          ← hfold ls (fun a ha => List.mem_append_left rs ha),
          ← hfold rs (fun a ha => List.mem_append_right ls ha)]
        rfl
    · have h : ∀ ls x name d rs, ¬ IsOperation ops t ls x name d rs :=
        fun ls x name d rs h' => h ⟨ls, x, name, d, rs, h'⟩
      rw [row_of_not_isOperation h, write_of_not_isOperation ht h hp ha]
      rfl

end Tree

end PrologTerms
