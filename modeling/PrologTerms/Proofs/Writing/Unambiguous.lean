import PrologTerms.Proofs.Writing.Row

/-!
# No two terms are written in the same pieces

If no two operators of one priority both claim what is between them, if the comma is weaker than an
argument, and if it can be told from their priorities what two operators side by side are, then the
pieces of a term determine the term. A row of operators and terms is one of only one operation, since
the weakest operator of it can stand at one place only, and pieces are those of only one row.
-/

namespace PrologTerms

/-- A table for which no two terms look the same. Only operators matter that are written as such. -/
structure OpTable.Unambiguous (ops : OpTable) : Prop where
  /-- Of two operators of one priority, not both claim what is between them. -/
  unclaimed : ∀ n n' x x' d d', ops.written? x n = some d → ops.written? x' n' = some d' →
    d.priority = d'.priority → d.rightOpen = true → d'.leftOpen = false
  /-- A comma between operands is weaker than an argument. -/
  comma : ∀ d, ops.between? "," = some d → argumentMax < d.priority
  /-- If two names side by side can be an operator behind an operand and one between operands, then
  they cannot be an operator between operands and one before an operand. -/
  roles : ∀ n n' dBetween dBehind dBefore' dBetween', n ≠ "," → n' ≠ "," →
    ops.written? .between n = some dBetween → ops.written? .behind n = some dBehind →
    ops.written? .before n' = some dBefore' → ops.written? .between n' = some dBetween' →
    dBehind.priority ≤ dBetween'.leftMax → ¬ dBefore'.priority ≤ dBetween.rightMax

/-- The pieces of a term on its own, in front of the pieces `k`, by what they begin with. -/
inductive Tree.Stands (ops : OpTable) : Tree → (k : List Piece) → List Piece → Prop
  /-- A variable. -/
  | var {i : Address} {k : List Piece} : Stands ops (.var i) k (.var i :: k)
  /-- An integer. -/
  | int {z : Int} {k : List Piece} : Stands ops (.int z) k (.int z :: k)
  /-- An atom that is no operator. -/
  | atom {name : String} {k : List Piece} (h : ops.isOp name = false) :
      Stands ops (.atom name) k (.atom name :: k)
  /-- An atom that is an operator, in round brackets. -/
  | opAtom {name : String} {k ps : List Piece} (h : ops.isOp name = true)
      (e : ps = .atom name :: .punct ')' :: k) : Stands ops (.atom name) k (.punct '(' :: ps)
  /-- A term in curly brackets. -/
  | curly {a : Tree} {k ps : List Piece} (ha : a.Writable)
      (e : ps = a.write ops .whole (.punct '}' :: k)) :
      Stands ops (.compound "{}" [a]) k (.punct '{' :: ps)
  /-- A list. -/
  | list {a a' : Tree} {k ps : List Piece} (ha : a.Writable) (ha' : a'.Writable)
      (e : ps = a.write ops .argument (a'.write ops .tail (.punct ']' :: k))) :
      Stands ops (.compound "." [a, a']) k (.punct '[' :: ps)
  /-- A term in functional notation. -/
  | call {name : String} {args : List Tree} {k ps : List Piece} (hc : IsCall ops name args)
      (hargs : ∀ a ∈ args, a.Writable)
      (e : ps = .punct '(' :: writeArgs ops args (.punct ')' :: k)) :
      Stands ops (.compound name args) k (.functor name :: ps)
  /-- An operation in round brackets. -/
  | operation {t : Tree} {ls rs : List Tree} {x : Fixity} {name : String} {d : OpDef}
      {k ps : List Piece} (h : IsOperation ops t ls x name d rs)
      (e : ps = writeRow ops (t.row ops d.priority) (.punct ')' :: k)) :
      Stands ops t k (.punct '(' :: ps)

variable {ops : OpTable} {is js : List Item} {i j : Item} {b : Bool} {k k' : List Piece} {x x' : Fixity}
  {n n' : String} {d d' : OpDef}

theorem OpTable.Unambiguous.not_fits (hu : ops.Unambiguous) (hr : ops.InRange)
    (hd : ops.written? x n = some d) (hd' : ops.written? x' n' = some d')
    (h : d.priority ≤ d'.leftMax) : ¬ d'.priority ≤ d.rightMax :=
  OpDef.not_fits (hr.pos _ _ _ (find?_of_written? hd)) (hr.pos _ _ _ (find?_of_written? hd'))
    (hu.unclaimed _ _ _ _ _ _ hd hd') h

/-- What can be read can be told apart. -/
theorem OpTable.Legible.unambiguous (hl : ops.Legible) : ops.Unambiguous where
  unclaimed n n' x x' d d' hd hd' :=
    hl.unclaimed n n' x x' d d' (find?_of_written? hd) (find?_of_written? hd')
  comma d hd := hl.separator_weak "," d (.inl rfl) hd
  roles n n' dBetween dBehind dBefore' dBetween' hn hn' h₁ h₂ h₃ h₄ hle := by
    rcases hl.oneSided n with h | h
    · rw [(written?_between_iff.1 h₁).2] at h
      cases h
    · rw [(written?_behind_iff.1 h₂).2.2] at h
      cases h

/-! ## Rows and operations -/

namespace Tree

variable {t u : Tree} {ls rs ls' rs' : List Tree}

/-- Of two operations with the same row, the operator of one does not come before that of the other. -/
theorem not_before_in_row (hu : ops.Unambiguous) (hr : ops.InRange)
    (ht : IsOperation ops t ls x n d rs) (hu' : IsOperation ops u ls' x' n' d' rs')
    (h : .op x n d ∈ ls'.flatMap fun a => a.row ops d'.leftMax)
    (h' : .op x' n' d' ∈ rs.flatMap fun a => a.row ops d.rightMax) : False := by
  obtain ⟨a, -, ha⟩ := List.mem_flatMap.1 h
  obtain ⟨a', -, ha'⟩ := List.mem_flatMap.1 h'
  exact hu.not_fits hr ht.written hu'.written (mem_row a _ _ ha).1 (mem_row a' _ _ ha').1

/-- A row is the row of one term only. -/
theorem row_injective (hu : ops.Unambiguous) (hr : ops.InRange) {m m' : Nat}
    (h : t.row ops m = u.row ops m') : t = u := by
  induction hn : t.size using Nat.strongRecOn generalizing t u m m' with
  | _ n ih =>
    subst hn
    rcases @row_cases ops t m with ht | ⟨ls, x, n, d, rs, hop, -, ht⟩
    · rcases @row_cases ops u m' with hu' | ⟨ls', x', n', d', rs', hop', -, hu'⟩
      · rw [ht, hu', List.singleton_inj, Item.term.injEq] at h
        exact h
      · have hmem : .op x' n' d' ∈ t.row ops m := by simp [h, hu']
        rw [ht, List.mem_singleton] at hmem
        cases hmem
    · rcases @row_cases ops u m' with hu' | ⟨ls', x', n', d', rs', hop', -, hu'⟩
      · have hmem : .op x n d ∈ u.row ops m' := by simp [← h, ht]
        rw [hu', List.mem_singleton] at hmem
        cases hmem
      · rw [ht, hu', List.append_eq_append_iff] at h
        have hsame : ls.flatMap (fun a => a.row ops d.leftMax) =
              ls'.flatMap (fun a => a.row ops d'.leftMax) →
            Item.op x n d :: rs.flatMap (fun a => a.row ops d.rightMax) =
              .op x' n' d' :: rs'.flatMap (fun a => a.row ops d'.rightMax) → t = u := by
          intro hl hr'
          rw [List.cons.injEq, Item.op.injEq] at hr'
          obtain ⟨⟨rfl, rfl, rfl⟩, hr'⟩ := hr'
          have hlt := hop.size_lt
          cases hop with
          | before _ =>
            cases hop' with
            | before _ =>
              simp only [List.flatMap_singleton] at hr'
              rw [ih _ (hlt _ (by simp)) hr' rfl]
          | behind _ =>
            cases hop' with
            | behind _ =>
              simp only [List.flatMap_singleton] at hl
              rw [ih _ (hlt _ (by simp)) hl rfl]
          | between _ =>
            cases hop' with
            | between _ =>
              simp only [List.flatMap_singleton] at hl hr'
              rw [ih _ (hlt _ (by simp)) hl rfl, ih _ (hlt _ (by simp)) hr' rfl]
        rcases h with ⟨as, hl, hr'⟩ | ⟨as, hl, hr'⟩
        · cases as with
          | nil => exact hsame (by simpa using hl.symm) hr'
          | cons i as =>
            rw [List.cons_append, List.cons.injEq] at hr'
            obtain ⟨rfl, hr'⟩ := hr'
            exact (not_before_in_row hu hr hop hop' (by simp [hl]) (by simp [hr'])).elim
        · cases as with
          | nil => exact hsame (by simpa using hl) hr'.symm
          | cons i as =>
            rw [List.cons_append, List.cons.injEq] at hr'
            obtain ⟨rfl, hr'⟩ := hr'
            exact (not_before_in_row hu hr hop' hop (by simp [hl]) (by simp [hr'])).elim

/-! ## Terms on their own -/

/-- An operation on its own is its row in brackets. -/
theorem stands_operation (hr : ops.InRange) (ht : t.Writable) (h : IsOperation ops t ls x n d rs)
    (k : List Piece) : Stands ops t k (t.write ops (.operand 0) k) := by
  have hpos := hr.pos _ _ _ (OpTable.find?_of_written? h.written)
  have hrow := write_eq_writeRow hr ht (.operand d.priority) (by simp) (.inl rfl) (.punct ')' :: k)
  have hlt : (Place.operand 0).max < d.priority := hpos
  have hnlt : ¬ (Place.operand d.priority).max < d.priority := Nat.lt_irrefl _
  rw [write_of_isOperation h (by simp), decide_eq_false hnlt] at hrow
  rw [write_of_isOperation h (by simp), decide_eq_true hlt]
  exact .operation h hrow

theorem stands_write (hr : ops.InRange) (ht : t.Writable) (k : List Piece) :
    Stands ops t k (t.write ops (.operand 0) k) := by
  have hw := ht
  revert hw
  refine Writable.induction ops ?var ?int ?atom ?curly ?before ?behind ?list ?between ?call ht
  case var =>
    intro i _
    rw [write_var (by simp)]
    exact .var
  case int =>
    intro z _ _
    rw [write_int (by simp)]
    exact .int
  case atom =>
    intro n _
    rw [write_atom (by simp)]
    cases hop : ops.isOp n with
    | true => exact .opAtom hop rfl
    | false => exact .atom hop
  case curly =>
    intro a ha _ _
    rw [write_curly (by simp)]
    exact .curly ha rfl
  case before =>
    intro n d a hname hd _ _ hw
    exact stands_operation hr hw (.before (OpTable.written?_before_iff.2 ⟨hname, hd⟩)) k
  case behind =>
    intro n d a hname hb hd _ _ hw
    exact stands_operation hr hw (.behind (OpTable.written?_behind_iff.2 ⟨hname, hb, hd⟩)) k
  case list =>
    intro a a' ha ha' _ _ _
    rw [write_list (by simp)]
    exact .list ha ha' rfl
  case between =>
    intro n d a a' hname hd _ _ _ _ hw
    exact stands_operation hr hw (.between (OpTable.written?_between_iff.2 ⟨hname, hd⟩)) k
  case call =>
    intro n args hc hargs _ _
    rw [write_call (by simp) hc]
    exact .call hc hargs rfl

/-- What is written for the term on its own is written for no other one, whatever comes behind. -/
def Unique (ops : OpTable) (t : Tree) : Prop :=
  ∀ u k k', u.Writable → t.write ops (.operand 0) k = u.write ops (.operand 0) k' → t = u ∧ k = k'

/-- Only an atom that is no operator begins with an atom. -/
theorem eq_atom_of_write (hr : ops.InRange) (ht : t.Writable)
    (h : t.write ops (.operand 0) k = .atom n :: k') :
    t = .atom n ∧ ops.isOp n = false ∧ k = k' := by
  have hs := stands_write hr ht k
  rw [h] at hs
  cases hs with
  | atom hn => exact ⟨rfl, hn, rfl⟩

end Tree

/-! ## Rows and pieces -/

theorem isOp_of_written? (h : ops.written? x n = some d) : ops.isOp n = true :=
  OpTable.isOp_iff.2 ⟨x, d, OpTable.find?_of_written? h⟩

/-- A row that begins with an atom begins with it as a term, or as an operator with a space behind
it. -/
theorem row_of_atom (hr : ops.InRange) (h : RowFrom ops true is)
    (e : writeRow ops is k = .atom n :: k') :
    (∃ is', is = .term (.atom n) :: is' ∧ ops.isOp n = false ∧ writeRow ops is' k = k') ∨
      ∃ d is', is = .op .before n d :: is' ∧ ops.written? .before n = some d ∧
        ∃ k'', k' = .space :: k'' := by
  cases is with
  | nil => cases h
  | cons i is =>
    obtain ⟨hleft, hfound, -, -⟩ := h
    rw [writeRow_cons] at e
    cases i with
    | term t =>
      obtain ⟨rfl, hn, hk⟩ := Tree.eq_atom_of_write hr hfound e
      exact .inl ⟨is, rfl, hn, hk⟩
    | op x m d =>
      cases x with
      | before =>
        rw [Item.write, List.cons.injEq, Piece.atom.injEq] at e
        obtain ⟨rfl, rfl⟩ := e
        exact .inr ⟨d, is, rfl, hfound, _, rfl⟩
      | between => cases hleft
      | behind => cases hleft

/-- Behind an operand, a row goes on with an operator behind a space, or with a comma. -/
theorem row_of_space (h : RowFrom ops false is) (hk : Ends k)
    (e : writeRow ops is k = .space :: k') :
    ∃ x n d is', is = .op x n d :: is' ∧ x ≠ .before ∧ (x = .between → n ≠ ",") ∧
      ∃ k'', k' = .atom n :: k'' := by
  cases is with
  | nil =>
    have e : k = .space :: k' := e
    rw [e] at hk
    exact hk.elim
  | cons i is =>
    obtain ⟨hleft, -⟩ := h
    rw [writeRow_cons] at e
    cases i with
    | term t => cases hleft
    | op x n d =>
      cases x with
      | before => cases hleft
      | between =>
        rw [Item.write, Tree.betweenOperands] at e
        split at e
        · cases e
        · next hn =>
          rw [List.cons.injEq] at e
          exact ⟨.between, n, d, is, rfl, by decide, fun _ => hn, _, e.2.symm⟩
      | behind =>
        rw [Item.write, List.cons.injEq] at e
        exact ⟨.behind, n, d, is, rfl, by decide, (fun hx => by cases hx), _, e.2.symm⟩

/-- A name that is written behind its operand in one row is not written between operands in another
one with the same pieces. -/
theorem not_behind_and_between (hu : ops.Unambiguous) (hr : ops.InRange)
    (hi : RowFrom ops false (.op .behind n d :: is)) (hj : RowFrom ops false (.op .between n' d' :: js))
    (hk : Ends k) :
    writeRow ops (.op .behind n d :: is) k ≠ writeRow ops (.op .between n' d' :: js) k' := by
  intro e
  obtain ⟨-, hd, hsuits, his⟩ := hi
  obtain ⟨-, hd', hsuits', hjs⟩ := hj
  rw [writeRow_cons, writeRow_cons, Item.write, Item.write, Tree.betweenOperands] at e
  split at e
  · cases e
  · next hcomma =>
    rw [List.cons.injEq, List.cons.injEq, Piece.atom.injEq] at e
    obtain ⟨-, rfl, e⟩ := e
    -- the next name is an operator behind the first one, and begins an operand of the second
    obtain ⟨x, m, dm, is', rfl, hx, hm, k'', e'⟩ := row_of_space his hk e
    obtain ⟨-, hdm, -, -⟩ := his
    rcases row_of_atom hr hjs e' with ⟨js', rfl, hop, -⟩ | ⟨dm', js', rfl, hbefore, -⟩
    · rw [isOp_of_written? hdm] at hop
      cases hop
    · cases x with
      | before => exact hx rfl
      | behind =>
        rw [OpTable.written?_before_of_behind hdm] at hbefore
        cases hbefore
      | between =>
        have h₁ := (hsuits _ rfl).1 rfl
        have h₂ := (hsuits' _ rfl).2 rfl
        exact hu.roles n m _ _ _ _ hcomma (hm rfl) hd' hd hbefore hdm h₁ h₂

theorem betweenOperands_injective (e : Tree.betweenOperands n k = Tree.betweenOperands n' k') :
    n = n' ∧ k = k' := by
  unfold Tree.betweenOperands Tree.comma at e
  split at e
  · next h =>
    split at e
    · next h' =>
      rw [List.cons.injEq, List.cons.injEq] at e
      exact ⟨h.trans h'.symm, e.2.2⟩
    · cases e
  · split at e
    · cases e
    · rw [List.cons.injEq, List.cons.injEq, List.cons.injEq, Piece.atom.injEq] at e
      exact ⟨e.2.1, e.2.2.2⟩

/-- Either there is no comma between operands in the rows, or no comma comes behind them. -/
def CommasApart (is js : List Item) (k k' : List Piece) : Prop :=
  (∀ d, .op .between "," d ∉ is ∧ .op .between "," d ∉ js) ∨
    k.head? ≠ some (.punct ',') ∧ k'.head? ≠ some (.punct ',')

theorem CommasApart.mono {is' js' : List Item} (h : CommasApart is js k k') (hi : is' ⊆ is)
    (hj : js' ⊆ js) : CommasApart is' js' k k' := by
  refine h.imp_left fun h d => ?_
  obtain ⟨h₁, h₂⟩ := h d
  exact ⟨fun hm => h₁ (hi hm), fun hm => h₂ (hj hm)⟩

theorem CommasApart.tail (h : CommasApart (i :: is) (j :: js) k k') : CommasApart is js k k' :=
  h.mono (List.subset_cons_self i is) (List.subset_cons_self j js)

theorem CommasApart.symm (h : CommasApart is js k k') : CommasApart js is k' k :=
  h.imp (fun h d => (h d).symm) And.symm

/-- Where a row ends, no other one goes on. -/
theorem eq_nil_of_writeRow (h : RowFrom ops false is) (hk : Ends k) (hc : CommasApart [] is k k')
    (e : k = writeRow ops is k') : is = [] := by
  cases is with
  | nil => rfl
  | cons i is =>
    obtain ⟨hleft, -⟩ := h
    rw [writeRow_cons] at e
    subst e
    cases i with
    | term t => cases hleft
    | op x n d =>
      cases x with
      | before => cases hleft
      | behind => exact hk.elim
      | between =>
        by_cases hn : n = ","
        · subst hn
          rcases hc with hc | ⟨hc, -⟩
          · exact absurd List.mem_cons_self (hc d).2
          · exact absurd rfl hc
        · rw [Item.write, Tree.betweenOperands, if_neg hn] at hk
          exact hk.elim

/-- Rows with the same pieces begin with the same item, if a term there is unique. -/
theorem first_of_writeRow (hu : ops.Unambiguous) (hr : ops.InRange) (hi : RowFrom ops b (i :: is))
    (hj : RowFrom ops b (j :: js)) (ht : ∀ t, i = .term t → t.Unique ops) (hk : Ends k)
    (hk' : Ends k') (e : writeRow ops (i :: is) k = writeRow ops (j :: js) k') :
    i = j ∧ writeRow ops is k = writeRow ops js k' := by
  have hfound : ∀ {x n d d'}, ops.written? x n = some d → ops.written? x n = some d' → d = d' := by
    intro x n d d' h h'
    rw [h, Option.some.injEq] at h'
    exact h'
  -- a term on its own is no operator
  have hterm : ∀ {t : Tree} {n d} {l l' : List Piece}, t.Writable → ops.written? .before n = some d →
      t.write ops (.operand 0) l ≠ .atom n :: l' := by
    intro t n d l l' hw hd e
    obtain ⟨-, hn, -⟩ := Tree.eq_atom_of_write hr hw e
    rw [isOp_of_written? hd] at hn
    cases hn
  have hi' := hi
  have hj' := hj
  obtain ⟨hleft, hi, -, -⟩ := hi
  obtain ⟨hleft', hj, -, -⟩ := hj
  cases b with
  | true =>
    cases i with
    | term t =>
      cases j with
      | term u =>
        obtain ⟨rfl, e'⟩ := ht t rfl u _ _ hj e
        exact ⟨rfl, e'⟩
      | op x n d =>
        cases x with
        | before => exact absurd e (hterm hi hj)
        | between => cases hleft'
        | behind => cases hleft'
    | op x n d =>
      cases x with
      | before =>
        cases j with
        | term u => exact absurd e.symm (hterm hj hi)
        | op x' n' d' =>
          cases x' with
          | before =>
            rw [writeRow_cons, writeRow_cons, Item.write, Item.write, List.cons.injEq,
              List.cons.injEq, Piece.atom.injEq] at e
            obtain ⟨rfl, -, e⟩ := e
            obtain rfl := hfound hi hj
            exact ⟨rfl, e⟩
          | between => cases hleft'
          | behind => cases hleft'
      | between => cases hleft
      | behind => cases hleft
  | false =>
    cases i with
    | term t => cases hleft
    | op x n d =>
      cases j with
      | term u => cases hleft'
      | op x' n' d' =>
        cases x with
        | before => cases hleft
        | between =>
          cases x' with
          | before => cases hleft'
          | between =>
            obtain ⟨rfl, e'⟩ := betweenOperands_injective e
            obtain rfl := hfound hi hj
            exact ⟨rfl, e'⟩
          | behind => exact absurd e.symm (not_behind_and_between hu hr hj' hi' hk')
        | behind =>
          cases x' with
          | before => cases hleft'
          | between => exact absurd e (not_behind_and_between hu hr hi' hj' hk)
          | behind =>
            rw [writeRow_cons, writeRow_cons, Item.write, Item.write, List.cons.injEq,
              List.cons.injEq, Piece.atom.injEq] at e
            obtain ⟨-, rfl, e⟩ := e
            obtain rfl := hfound hi hj
            exact ⟨rfl, e⟩

/-- Pieces are those of one row only, if this is so for its terms. -/
theorem writeRow_injective (hu : ops.Unambiguous) (hr : ops.InRange) (hi : RowFrom ops b is)
    (hj : RowFrom ops b js) (ht : ∀ t, .term t ∈ is → t.Unique ops) (hk : Ends k) (hk' : Ends k')
    (hc : CommasApart is js k k') (e : writeRow ops is k = writeRow ops js k') :
    is = js ∧ k = k' := by
  induction is generalizing b js with
  | nil =>
    cases (hi : b = false)
    obtain rfl := eq_nil_of_writeRow hj hk hc e
    exact ⟨rfl, e⟩
  | cons i is ih =>
    cases js with
    | nil =>
      cases (hj : b = false)
      cases eq_nil_of_writeRow hi hk' hc.symm e.symm
    | cons j js =>
      obtain ⟨rfl, e'⟩ := first_of_writeRow hu hr hi hj
        (fun t h => ht t (h ▸ List.mem_cons_self)) hk hk' e
      obtain ⟨rfl, rfl⟩ := ih hi.2.2.2 hj.2.2.2 (fun t h => ht t (List.mem_cons_of_mem i h)) hc.tail e'
      exact ⟨rfl, rfl⟩

/-! ## Terms and pieces -/

namespace Tree

variable {t u : Tree} {p : Place}

/-- No comma comes behind a term at the place, unless it is one between arguments. -/
def CommaFits (p : Place) (k : List Piece) : Prop :=
  p = .argument ∨ p = .whole ∧ k.head? ≠ some (.punct ',')

theorem CommaFits.ne_tail (h : CommaFits p k) : p ≠ .tail := by
  rcases h with rfl | ⟨rfl, -⟩
  · simp
  · simp

/-- Among arguments there is no comma between operands. -/
theorem commasApart_row (hu : ops.Unambiguous) (ht : t.Writable) (hw : u.Writable)
    (hk : CommaFits p k) (hk' : CommaFits p k') :
    CommasApart (t.row ops p.max) (u.row ops p.max) k k' := by
  rcases hk with rfl | ⟨rfl, hk⟩
  · have hno : ∀ v : Tree, v.Writable → ∀ d, .op .between "," d ∉ v.row ops argumentMax := by
      intro v hv d hmem
      have hd := (rowFrom_row hv argumentMax).found _ hmem
      have hle := (mem_row v argumentMax _ hmem).1
      have hlt := hu.comma d (OpTable.written?_between_iff.1 hd).2
      exact absurd hle (Nat.not_le_of_lt hlt)
    exact .inl fun d => ⟨hno t ht d, hno u hw d⟩
  · rcases hk' with hk' | ⟨-, hk'⟩
    · cases hk'
    · exact .inr ⟨hk, hk'⟩

/-- What is written for the term at a place is written for no other one. -/
structure Determined (ops : OpTable) (t : Tree) : Prop where
  /-- This is so for a term on its own. -/
  own : t.Unique ops
  /-- So it is for a whole term, or an argument. -/
  placed : ∀ p u k k', u.Writable → Ends k → Ends k' → CommaFits p k → CommaFits p k' →
    t.write ops p k = u.write ops p k' → t = u ∧ k = k'
  /-- So it is for the tail of a list. -/
  tail : ∀ u k k', u.Writable →
    t.write ops .tail (.punct ']' :: k) = u.write ops .tail (.punct ']' :: k') → t = u ∧ k = k'

theorem ends_close {c : Char} (hc : c ∈ closers) (k : List Piece) : Ends (.punct c :: k) := hc

theorem writeArgs_injective {args args' : List Tree} (hd : ∀ a ∈ args, a.Determined ops)
    (hw : ∀ a ∈ args', a.Writable) (hne : args ≠ []) (hne' : args' ≠ [])
    (e : writeArgs ops args (.punct ')' :: k) = writeArgs ops args' (.punct ')' :: k')) :
    args = args' ∧ k = k' := by
  induction args generalizing args' with
  | nil => exact absurd rfl hne
  | cons a as ih =>
    cases args' with
    | nil => exact absurd rfl hne'
    | cons a' as' =>
      have hplaced : ∀ c c' l l', c ∈ closers → c' ∈ closers →
          a.write ops .argument (.punct c :: l) = a'.write ops .argument (.punct c' :: l') →
          a = a' ∧ c = c' ∧ l = l' := by
        intro c c' l l' hc hc' e
        obtain ⟨h₁, h₂⟩ := (hd a List.mem_cons_self).placed .argument a' _ _ (hw a' List.mem_cons_self)
          (ends_close hc l) (ends_close hc' l') (.inl rfl) (.inl rfl) e
        rw [List.cons.injEq, Piece.punct.injEq] at h₂
        exact ⟨h₁, h₂⟩
      cases as with
      | nil =>
        cases as' with
        | nil =>
          obtain ⟨rfl, -, rfl⟩ := hplaced _ _ _ _ (by decide) (by decide) e
          exact ⟨rfl, rfl⟩
        | cons b' bs' =>
          obtain ⟨-, hc, -⟩ := hplaced _ _ _ _ (by decide) (by decide) e
          cases hc
      | cons b bs =>
        cases as' with
        | nil =>
          obtain ⟨-, hc, -⟩ := hplaced _ _ _ _ (by decide) (by decide) e
          cases hc
        | cons b' bs' =>
          obtain ⟨rfl, -, e'⟩ := hplaced _ _ _ _ (by decide) (by decide) e
          rw [List.cons.injEq] at e'
          obtain ⟨h, rfl⟩ := ih (fun c hc => hd c (List.mem_cons_of_mem a hc))
            (fun c hc => hw c (List.mem_cons_of_mem a hc)) (by simp) (by simp) e'.2
          exact ⟨by rw [h], rfl⟩

/-- The terms in the row of an operation are parts of it. -/
theorem size_lt_of_mem_row {ls rs : List Tree} (h : IsOperation ops t ls x n d rs) {m : Nat}
    (hm : d.priority ≤ m) (hu : .term u ∈ t.row ops m) : u.size < t.size := by
  rw [row_of_isOperation h, if_neg (Nat.not_lt_of_le hm)] at hu
  have hpart : ∀ a ∈ ls ++ rs, ∀ m, .term u ∈ a.row ops m → u.size < t.size :=
    fun a ha m hu => Nat.lt_of_le_of_lt ((mem_row a m _ hu).2 u rfl) (h.size_lt a ha)
  rcases List.mem_append.1 hu with hu | hu
  · obtain ⟨a, ha, hu⟩ := List.mem_flatMap.1 hu
    exact hpart a (List.mem_append_left rs ha) _ hu
  · rcases List.mem_cons.1 hu with hu | hu
    · cases hu
    · obtain ⟨a, ha, hu⟩ := List.mem_flatMap.1 hu
      exact hpart a (List.mem_append_right ls ha) _ hu

/-- A term on its own is determined if its parts are. -/
theorem unique_of_parts (hu : ops.Unambiguous) (hr : ops.InRange) (ht : t.Writable)
    (ih : ∀ a : Tree, a.size < t.size → a.Writable → a.Determined ops) : t.Unique ops := by
  intro u k k' hw e
  have h₁ := stands_write hr ht k
  have h₂ := stands_write hr hw k'
  rw [← e] at h₂
  generalize t.write ops (.operand 0) k = ps at h₁ h₂
  -- an operator in brackets is no operation in brackets
  have hbrackets : ∀ {v : Tree} {l l' : List Piece} {n : String} {m : Nat}, v.Writable →
      ops.isOp n = true → writeRow ops (v.row ops m) l ≠ .atom n :: .punct ')' :: l' := by
    intro v l l' n m hv hn e
    rcases row_of_atom hr (rowFrom_row hv m) e with ⟨_, -, hn', -⟩ | ⟨_, _, -, -, _, e'⟩
    · rw [hn] at hn'
      cases hn'
    · cases e'
  cases h₁ with
  | var => cases h₂; exact ⟨rfl, rfl⟩
  | int => cases h₂; exact ⟨rfl, rfl⟩
  | atom _ => cases h₂; exact ⟨rfl, rfl⟩
  | opAtom hn e₁ =>
    cases h₂ with
    | opAtom _ e₂ =>
      rw [e₁, List.cons.injEq, List.cons.injEq, Piece.atom.injEq] at e₂
      obtain ⟨rfl, -, rfl⟩ := e₂
      exact ⟨rfl, rfl⟩
    | operation _ e₂ => exact absurd (e₂.symm.trans e₁) (hbrackets hw hn)
  | @curly a _ _ ha e₁ =>
    cases h₂ with
    | curly ha' e₂ =>
      have hd := ih a (size_lt_of_mem List.mem_cons_self) ha
      obtain ⟨rfl, hk⟩ := hd.placed .whole _ _ _ ha' (ends_close (by decide) k)
        (ends_close (by decide) k') (.inr ⟨rfl, by simp⟩) (.inr ⟨rfl, by simp⟩) (e₁.symm.trans e₂)
      rw [List.cons.injEq] at hk
      exact ⟨rfl, hk.2⟩
  | @list a b _ _ ha hb e₁ =>
    cases h₂ with
    | list ha' hb' e₂ =>
      have hda := ih a (size_lt_of_mem (by simp)) ha
      have hdb := ih b (size_lt_of_mem (by simp)) hb
      obtain ⟨rfl, htail⟩ := hda.placed .argument _ _ _ ha' (ends_tail hb.proper (ends_close (by decide) k))
        (ends_tail hb'.proper (ends_close (by decide) k')) (.inl rfl) (.inl rfl) (e₁.symm.trans e₂)
      obtain ⟨rfl, rfl⟩ := hdb.tail _ _ _ hb' htail
      exact ⟨rfl, rfl⟩
  | @call _ args _ _ hc hargs e₁ =>
    cases h₂ with
    | call hc' hargs' e₂ =>
      rw [e₁, List.cons.injEq] at e₂
      have hd : ∀ a ∈ args, a.Determined ops := fun a ha => ih a (size_lt_of_mem ha) (hargs a ha)
      obtain ⟨rfl, rfl⟩ := writeArgs_injective hd hargs' hc.ne_nil hc'.ne_nil e₂.2
      exact ⟨rfl, rfl⟩
  | @operation t ls rs x n d k ps hop e₁ =>
    cases h₂ with
    | opAtom hn e₂ => exact absurd (e₁.symm.trans e₂) (hbrackets ht hn)
    | operation hop' e₂ =>
      have hfrom := @rowFrom_row ops _ ht d.priority
      have hterms : ∀ v, .term v ∈ t.row ops d.priority → v.Unique ops := fun v hv =>
        (ih v (size_lt_of_mem_row hop (Nat.le_refl _) hv) (hfrom.found _ hv)).own
      obtain ⟨hrow, hk⟩ := writeRow_injective hu hr hfrom (rowFrom_row hw _) hterms
        (ends_close (by decide) k) (ends_close (by decide) k') (.inr ⟨by simp, by simp⟩)
        (e₁.symm.trans e₂)
      rw [List.cons.injEq] at hk
      exact ⟨row_injective hu hr hrow, hk.2⟩

/-- An atom that is a whole term or an argument is written as no other term. -/
theorem write_ne_atom (hu : ops.Unambiguous) (hr : ops.InRange) (hw : u.Writable)
    (hatom : ∀ n, u ≠ .atom n) (hk : Ends k) (hc : CommaFits p k) (hc' : CommaFits p k') :
    u.write ops p k' ≠ .atom n :: k := by
  intro e
  rw [write_eq_writeRow hr hw p hc.ne_tail (.inr hatom)] at e
  rcases row_of_atom hr (rowFrom_row hw p.max) e with ⟨is, his, -, e'⟩ | ⟨_, _, -, -, _, rfl⟩
  · -- the atom is all of the row
    have hfrom := @rowFrom_row ops _ hw p.max
    have hcommas := commasApart_row hu hw hw hc hc'
    rw [his] at hfrom hcommas
    obtain rfl := eq_nil_of_writeRow hfrom.2.2.2 hk
      (hcommas.mono (List.nil_subset _) (List.subset_cons_self _ _)) e'.symm
    rcases @row_cases ops u p.max with hrow | ⟨_, x, m, d, _, _, -, hrow⟩
    · rw [hrow, List.singleton_inj, Item.term.injEq] at his
      exact hatom n his
    · have hmem : .op x m d ∈ u.row ops p.max := by simp [hrow]
      rw [his, List.mem_singleton] at hmem
      cases hmem
  · exact hk.elim

theorem write_atom_of_commaFits (h : CommaFits p k) (n : String) (l : List Piece) :
    (atom n).write ops p l = .atom n :: l := by
  rw [write_atom h.ne_tail]
  rcases h with rfl | ⟨rfl, -⟩
  · rfl
  · rfl

/-- A whole term or an argument is determined if its parts, and the term on its own, are. -/
theorem placed_of_parts (hu : ops.Unambiguous) (hr : ops.InRange) (ht : t.Writable)
    (hown : t.Unique ops) (ih : ∀ a : Tree, a.size < t.size → a.Writable → a.Determined ops)
    (hw : u.Writable) (hk : Ends k) (hk' : Ends k') (hc : CommaFits p k) (hc' : CommaFits p k')
    (e : t.write ops p k = u.write ops p k') : t = u ∧ k = k' := by
  by_cases h : ∃ n, t = .atom n
  · obtain ⟨n, rfl⟩ := h
    rw [write_atom_of_commaFits hc] at e
    by_cases h' : ∃ n', u = .atom n'
    · obtain ⟨n', rfl⟩ := h'
      rw [write_atom_of_commaFits hc', List.cons.injEq, Piece.atom.injEq] at e
      obtain ⟨rfl, rfl⟩ := e
      exact ⟨rfl, rfl⟩
    · exact absurd e.symm (write_ne_atom hu hr hw (fun n' h => h' ⟨n', h⟩) hk hc hc')
  · have h : ∀ n, t ≠ .atom n := fun n hn => h ⟨n, hn⟩
    by_cases h' : ∃ n', u = .atom n'
    · obtain ⟨n', rfl⟩ := h'
      rw [write_atom_of_commaFits hc'] at e
      exact absurd e (write_ne_atom hu hr ht h hk' hc' hc)
    · -- both are written as rows
      have h' : ∀ n, u ≠ .atom n := fun n hn => h' ⟨n, hn⟩
      have hterms : ∀ v, .term v ∈ t.row ops p.max → v.Unique ops := by
        intro v hv
        rcases @row_cases ops t p.max with hrow | ⟨_, _, _, _, _, hop, hle, -⟩
        · rw [hrow, List.mem_singleton, Item.term.injEq] at hv
          subst hv
          exact hown
        · exact (ih v (size_lt_of_mem_row hop hle hv) ((rowFrom_row ht p.max).found _ hv)).own
      have hp := hc.ne_tail
      rw [write_eq_writeRow hr ht p hp (.inr h), write_eq_writeRow hr hw p hp (.inr h')] at e
      obtain ⟨hrow, hk⟩ := writeRow_injective hu hr (rowFrom_row ht _) (rowFrom_row hw _) hterms
        hk hk' (commasApart_row hu ht hw hc hc') e
      exact ⟨row_injective hu hr hrow, hk⟩

/-- The tail of a list is determined if its parts, and the same term as an argument, are. -/
theorem tail_of_parts (ht : t.Writable)
    (hargument : ∀ u k k', u.Writable → Ends k → Ends k' →
      t.write ops .argument k = u.write ops .argument k' → t = u ∧ k = k')
    (ih : ∀ a : Tree, a.size < t.size → a.Writable → a.Determined ops) (hw : u.Writable)
    (e : t.write ops .tail (.punct ']' :: k) = u.write ops .tail (.punct ']' :: k')) :
    t = u ∧ k = k' := by
  have hclose : ']' ∈ closers := by decide
  -- the three ways in which a list can go on begin with different pieces
  by_cases hl : t.IsList
  · by_cases hl' : u.IsList
    · rcases hl with rfl | ⟨a, b, rfl⟩
      · rcases hl' with rfl | ⟨a', b', rfl⟩
        · rw [write_tail_nil, write_tail_nil, List.cons.injEq] at e
          exact ⟨rfl, e.2⟩
        · rw [write_tail_nil, write_tail_list] at e
          cases e
      · rcases hl' with rfl | ⟨a', b', rfl⟩
        · rw [write_tail_nil, write_tail_list] at e
          cases e
        · rw [write_tail_list, write_tail_list, comma, comma, List.cons.injEq, List.cons.injEq] at e
          have hparts := (everywhere_compound.1 ht).2
          have hparts' := (everywhere_compound.1 hw).2
          have hb : b.Writable := hparts b (by simp)
          have hb' : b'.Writable := hparts' b' (by simp)
          obtain ⟨rfl, htail⟩ := (ih a (size_lt_of_mem (by simp)) (hparts a (by simp))).placed
            .argument _ _ _ (hparts' a' (by simp)) (ends_tail hb.proper (ends_close hclose k))
            (ends_tail hb'.proper (ends_close hclose k')) (.inl rfl) (.inl rfl) e.2.2
          obtain ⟨rfl, rfl⟩ := (ih b (size_lt_of_mem (by simp)) hb).tail _ _ _ hb' htail
          exact ⟨rfl, rfl⟩
    · rw [write_tail hw.proper hl'] at e
      rcases hl with rfl | ⟨a, b, rfl⟩
      · rw [write_tail_nil] at e
        cases e
      · rw [write_tail_list] at e
        cases e
  · rw [write_tail ht.proper hl] at e
    by_cases hl' : u.IsList
    · rcases hl' with rfl | ⟨a', b', rfl⟩
      · rw [write_tail_nil] at e
        cases e
      · rw [write_tail_list] at e
        cases e
    · rw [write_tail hw.proper hl', List.cons.injEq] at e
      obtain ⟨rfl, hk⟩ :=
        hargument u _ _ hw (ends_close hclose k) (ends_close hclose k') e.2
      rw [List.cons.injEq] at hk
      exact ⟨rfl, hk.2⟩

/-- A term is determined by what is written for it, wherever it stands. -/
theorem Writable.determined (hu : ops.Unambiguous) (hr : ops.InRange) (ht : t.Writable) :
    t.Determined ops := by
  induction hn : t.size using Nat.strongRecOn generalizing t with
  | _ n ih =>
    subst hn
    have ih : ∀ a : Tree, a.size < t.size → a.Writable → a.Determined ops :=
      fun a hlt ha => ih a.size hlt ha rfl
    have hown := unique_of_parts hu hr ht ih
    exact ⟨hown, fun p u k k' => placed_of_parts hu hr ht hown ih, fun u k k' => tail_of_parts ht
      (fun u k k' hw hk hk' => placed_of_parts hu hr ht hown ih hw hk hk' (.inl rfl) (.inl rfl)) ih⟩

/-- No two terms have the same pieces. -/
theorem pieces_injective (hu : ops.Unambiguous) (hr : ops.InRange) (ht : t.Writable) (hw : u.Writable)
    (e : t.pieces ops = u.pieces ops) : t = u :=
  ((ht.determined hu hr).placed .whole u [] [] hw trivial trivial (.inr ⟨rfl, by simp⟩)
    (.inr ⟨rfl, by simp⟩) e).1

end Tree

end PrologTerms
