import PrologTerms.Proofs.Writing.Clear

/-!
# No leaf is lost in writing

Every leaf of a term is sure to become a leaf of what is read.
-/

namespace PrologTerms

variable {ops : OpTable} {naming : Address → String} {more : List Char} {k k' : List Piece}
  {b f : Bool} {stream : LexemeStream} {n n' : Nat} {name : String} {t : Tree}

/-! ## Leaves -/

/-- Reading on up to the pieces `k` passes `n` lexemes that are sure to become leaves. -/
def Passes (ops : OpTable) (naming : Address → String) (more : List Char) (k : List Piece) (n : Nat)
    (atStart : Bool) (stream : LexemeStream) : Prop :=
  ∃ stream', Spells naming more k false stream' ∧
    n + sureLeaves ops false stream' ≤ sureLeaves ops atStart stream

theorem passes_zero (h : Spells naming more k false stream) :
    Passes ops naming more k 0 false stream :=
  ⟨stream, h, Nat.le_of_eq (Nat.zero_add _)⟩

theorem Passes.mono (h : Passes ops naming more k n false stream) (f : Bool) :
    Passes ops naming more k n f stream := by
  obtain ⟨stream', hs, hle⟩ := h
  exact ⟨stream', hs, Nat.le_trans hle (sureLeaves_le ops f stream)⟩

theorem Passes.and_then (h : Passes ops naming more k n f stream)
    (h' : ∀ stream', Spells naming more k false stream' → Passes ops naming more k' n' false stream') :
    Passes ops naming more k' (n + n') f stream := by
  obtain ⟨stream₁, hs₁, hle₁⟩ := h
  obtain ⟨stream₂, hs₂, hle₂⟩ := h' stream₁ hs₁
  exact ⟨stream₂, hs₂, by omega⟩

/-- Behind an opening bracket, a comma or a bar, an operand begins. -/
theorem passes_open {c : Char} (hc : c ∈ ['(', '[', '{', ',', '|'])
    (hs : Spells naming more (.punct c :: k) b stream)
    (h : ∀ rest, Spells naming more k false rest → Passes ops naming more k' n true rest) :
    Passes ops naming more k' n f stream := by
  obtain ⟨l, rest, rfl, hl, hrest⟩ := hs.punct
  obtain ⟨stream', hs', hle⟩ := h rest hrest
  have hall : ∀ c ∈ ['(', '[', '{', ',', '|'], String.ofList [c] ∈ ["(", "[", "\x7b", ",", "|"] :=
    List.all_iff_forall_prop.1 (by decide)
  refine ⟨stream', hs', ?_⟩
  rw [sureLeaves_punct f hl.kind, hl.lexeme, decide_eq_true (hall c hc)]
  exact hle

/-- A closing bracket is no leaf. -/
theorem passes_close {c : Char} (hs : Spells naming more (.punct c :: k) b stream) :
    Passes ops naming more k 0 false stream := by
  obtain ⟨l, rest, rfl, hl, hrest⟩ := hs.punct
  refine ⟨rest, hrest, ?_⟩
  rw [sureLeaves_punct false hl.kind, Nat.zero_add]
  exact sureLeaves_le ops _ rest

/-- A name counts as a leaf if it is sure to be an atom. -/
theorem passes_atom (hs : Spells naming more (.atom name :: k) b stream) (hn : n ≤ leafCount name)
    (h : ∀ l : Lexeme, ∀ rest, l.Is .name name b → Spells naming more k false rest →
      n = 0 ∨ surelyAtom ops f name rest = true) :
    Passes ops naming more k n f stream := by
  have hbrackets : ∀ c d, leafCount name = 0 → c ∈ ['[', '{'] → Begins (Spells naming more k)
      [(.punct, String.ofList [c]), (.punct, String.ofList [d])] b stream →
      Passes ops naming more k n f stream := by
    intro c d hcount hc hs
    have hzero : n = 0 := by omega
    have hopen : c ∈ ['(', '[', '{', ',', '|'] := List.all_iff_forall_prop.1 (by decide) c hc
    rw [hzero]
    exact passes_open (k := .punct d :: k) hopen hs fun rest hs' => (passes_close hs').mono true
  by_cases h₁ : name = "[]"
  · subst h₁
    exact hbrackets '[' ']' rfl (by decide) hs
  by_cases h₂ : name = "{}"
  · subst h₂
    exact hbrackets '{' '}' rfl (by decide) hs
  obtain ⟨l, rest, rfl, hl, hrest⟩ := hs.atom h₁ h₂
  refine ⟨rest, hrest, ?_⟩
  rw [sureLeaves_name f hl.kind, hl.lexeme]
  rcases h l rest hl hrest with hzero | hsure
  · omega
  · rw [hsure, if_pos rfl]
    omega

/-- Whatever a name is, reading goes on behind it. -/
theorem passes_name (hs : Spells naming more (.atom name :: k) b stream) :
    Passes ops naming more k 0 f stream :=
  passes_atom hs (Nat.zero_le _) fun _ _ _ _ => .inl rfl

/-- What stands around a term in round brackets is no leaf. -/
theorem passes_bracketed {needed : Bool} {inner : List Piece → List Piece}
    (hparen : needed = true → ∀ rest, Spells naming more (inner (.punct ')' :: k)) false rest →
      Passes ops naming more (.punct ')' :: k) n true rest)
    (hplain : needed = false → Spells naming more (inner k) b stream →
      Passes ops naming more k n f stream)
    (h : Spells naming more (Tree.bracketed needed inner k) b stream) :
    Passes ops naming more k n f stream := by
  cases needed with
  | false => exact hplain rfl h
  | true =>
    exact passes_open (by decide) h fun rest hs => (hparen rfl rest hs).and_then fun _ => passes_close

/-! ## Terms -/

namespace Tree

variable {d : OpDef} {args : List Tree} {a a' : Tree}

/-- The leaves of the term are sure to become leaves, wherever it stands. -/
def KeepsLeaves (ops : OpTable) (naming : Address → String) (more : List Char) (t : Tree) : Prop :=
  ∀ p : Place, p ≠ .tail → ∀ k b stream, Follows k → (p.isOperand = false → Ends k) →
    Spells naming more (t.write ops p k) b stream →
    Passes ops naming more k t.leaves (!p.isOperand) stream

/-- The same of the tail of a list. -/
def TailKeepsLeaves (ops : OpTable) (naming : Address → String) (more : List Char) (t : Tree) : Prop :=
  ∀ k stream, Ends k → Spells naming more (t.write ops .tail k) false stream →
    Passes ops naming more k t.leaves false stream

theorem leaves_one : (compound name [a]).leaves = a.leaves := by simp

theorem leaves_two : (compound name [a, a']).leaves = a.leaves + a'.leaves := by simp

theorem KeepsLeaves.operand {m : Nat} (h : a.KeepsLeaves ops naming more) (hk : Follows k)
    (hs : Spells naming more (a.write ops (.operand m) k) b stream) :
    Passes ops naming more k a.leaves false stream :=
  h (.operand m) (by simp) k b stream hk (by simp [Place.isOperand]) hs

theorem KeepsLeaves.argument (h : a.KeepsLeaves ops naming more) (hk : Ends k)
    (hs : Spells naming more (a.write ops .argument k) b stream) :
    Passes ops naming more k a.leaves true stream :=
  h .argument (by simp) k b stream hk.follows (fun _ => hk) hs

theorem keepsLeaves_operator {p : Place} {needed : Bool} {inner : List Piece → List Piece}
    (hinner : ∀ k b stream, Follows k → Spells naming more (inner k) b stream →
      Passes ops naming more k n false stream) (hk : Follows k)
    (hs : Spells naming more (bracketed needed inner k) b stream) :
    Passes ops naming more k n (!p.isOperand) stream := by
  refine passes_bracketed ?_ ?_ hs
  · intro _ rest hs
    exact (hinner _ _ _ (by simp [Follows, closers]) hs).mono true
  · intro _ hs
    exact (hinner k b stream hk hs).mono _

theorem keepsLeaves_int (n : Int) : (int n).KeepsLeaves ops naming more := by
  intro p hp k b stream _ _ hs
  rw [write_int hp] at hs
  cases n with
  | ofNat n =>
    obtain ⟨l, rest, rfl, hl, hrest⟩ := hs
    refine ⟨rest, hrest, ?_⟩
    rw [sureLeaves, hl.kind]
    exact Nat.le_refl _
  | negSucc n =>
    obtain ⟨l, rest, rfl, hl, l', rest', rfl, hl', hrest⟩ := hs
    refine ⟨rest', hrest, ?_⟩
    rw [sureLeaves_name _ hl.kind, sureLeaves, hl'.kind]
    exact Nat.le_add_left _ _

/-- An atom is sure to be one if it is no operator, or if the operand ends behind it. -/
theorem passes_leaf (hk : Follows k) (h : ops.isOp name = false ∨ f = true ∧ Ends k)
    (hs : Spells naming more (.atom name :: k) b stream) :
    Passes ops naming more k (atom name).leaves f stream := by
  refine passes_atom hs (Nat.le_refl _) fun l rest hl hrest => .inr ?_
  obtain ⟨l', rest', rfl⟩ := hrest.exists_cons
  rw [surelyAtom]
  by_cases hop : ops.isOp name = true
  · rw [if_pos hop]
    rcases h with h | ⟨hf, hends⟩
    · rw [h] at hop
      cases hop
    · rw [hf, hrest.closes hends]
      rfl
  · rw [if_neg hop]
    rcases hrest.plain hk with h | ⟨hkind, h⟩ | hkind
    · rw [h, Bool.true_or]
    · simp [h, hkind]
    · have h : l'.isPunct "(" = false := by simp [Lexeme.isPunct, Token.isPunct, hkind]
      simp [h, hkind]

theorem keepsLeaves_atom (name : String) : (atom name).KeepsLeaves ops naming more := by
  intro p hp k b stream hk hends hs
  rw [write_atom hp] at hs
  refine passes_bracketed ?_ ?_ hs
  · intro _ rest hs
    have hclose : Ends (.punct ')' :: k) := by simp [Ends, closers]
    exact passes_leaf hclose.follows (.inr ⟨rfl, hclose⟩) hs
  · intro hneeded hs
    refine passes_leaf hk ?_ hs
    cases hpo : p.isOperand with
    | false => exact .inr ⟨rfl, hends hpo⟩
    | true =>
      rw [hpo, Bool.true_and] at hneeded
      exact .inl hneeded

theorem passes_arguments (ih : ∀ t ∈ args, t.KeepsLeaves ops naming more) (hne : args ≠ [])
    (hs : Spells naming more (writeArgs ops args (.punct ')' :: k)) b stream) :
    Passes ops naming more k (args.map leaves).sum true stream := by
  induction args generalizing b stream with
  | nil => exact absurd rfl hne
  | cons t ts ihs =>
    have ht := ih t List.mem_cons_self
    rw [List.map_cons, List.sum_cons]
    cases ts with
    | nil =>
      have hclose : Ends (.punct ')' :: k) := by simp [Ends, closers]
      exact (ht.argument hclose hs).and_then fun _ => passes_close
    | cons u us =>
      have hends : Ends (comma (writeArgs ops (u :: us) (.punct ')' :: k))) := by
        simp [comma, Ends, closers]
      refine (ht.argument hends hs).and_then fun rest hs => ?_
      refine passes_open (by decide) hs fun rest hs => ?_
      exact ihs (fun t ht => ih t (List.mem_cons_of_mem _ ht)) (by simp) (b := true) hs

/-- The leaves of a written term are sure to become leaves of what is read. -/
theorem Writable.keepsLeaves (ht : t.Writable) :
    t.KeepsLeaves ops naming more ∧ t.TailKeepsLeaves ops naming more := by
  refine Writable.tail_induction ops ?var ?int ?atom ?curly ?before ?behind ?list ?between ?call
    ?tail_nil ?tail_list ?tail ht
  case var =>
    intro i p hp k b stream _ _ hs
    rw [write_var hp] at hs
    obtain ⟨l, rest, rfl, hl, hrest⟩ := hs
    refine ⟨rest, hrest, ?_⟩
    rw [sureLeaves, hl.kind]
    exact Nat.le_refl _
  case int => exact fun n _ => keepsLeaves_int n
  case atom => exact keepsLeaves_atom
  case curly =>
    intro a _ ih p hp k b stream _ _ hs
    rw [write_curly hp] at hs
    rw [leaves_one]
    have hclose : Ends (.punct '}' :: k) := by simp [Ends, closers]
    refine passes_open (by decide) hs fun rest hs => ?_
    exact (ih .whole (by simp) _ _ _ hclose.follows (fun _ => hclose) hs).and_then fun _ => passes_close
  case before =>
    intro name d a hname hd _ ih p hp k b stream hk _ hs
    rw [write_before hp hname hd] at hs
    rw [leaves_one]
    refine keepsLeaves_operator (fun k b stream hk hs => ?_) hk hs
    have hname : Passes ops naming more (.space :: a.write ops (.operand d.rightMax) k) 0 false
        stream := passes_name hs
    rw [← Nat.zero_add a.leaves]
    refine hname.and_then fun rest hs => ?_
    exact ih.operand (b := true) hk hs
  case behind =>
    intro name d a hname hb hd _ ih p hp k b stream hk _ hs
    rw [write_behind hp hname hb hd] at hs
    rw [leaves_one]
    refine keepsLeaves_operator (fun k b stream hk hs => ?_) hk hs
    exact (ih.operand (k := .space :: .atom name :: k) trivial hs).and_then
      fun rest hs => passes_name (b := true) hs
  case between =>
    intro name d a a' hname hd _ _ ih ih' p hp k b stream hk _ hs
    rw [write_between hp hname hd] at hs
    rw [leaves_two]
    refine keepsLeaves_operator (fun k b stream hk hs => ?_) hk hs
    refine (ih.operand ?_ hs).and_then fun rest hs => ?_
    · unfold betweenOperands
      split
      · simp [comma, Follows, closers]
      · trivial
    unfold betweenOperands at hs
    split at hs
    · refine passes_open (by decide) hs fun rest hs => ?_
      exact (ih'.operand (b := true) hk hs).mono true
    · rw [← Nat.zero_add a'.leaves]
      have hname : Passes ops naming more (.space :: a'.write ops (.operand d.rightMax) k) 0 false
          rest := passes_name (b := true) hs
      exact hname.and_then fun rest hs => ih'.operand (b := true) hk hs
  case list =>
    intro a a' _ hw' ih ih' p hp k b stream _ _ hs
    rw [write_list hp] at hs
    rw [leaves_two]
    have hclose : Ends (.punct ']' :: k) := by simp [Ends, closers]
    refine passes_open (by decide) hs fun rest hs => ?_
    refine (ih.argument (ends_tail hw'.proper hclose) hs).and_then fun rest hs => ?_
    exact (ih' _ rest hclose hs).and_then fun _ => passes_close
  case call =>
    intro name args hc _ ih p hp k b stream _ _ hs
    rw [write_call hp hc] at hs
    rw [leaves_compound]
    obtain ⟨l, rest, rfl, hl, hs⟩ := hs.functor
    obtain ⟨rest', hrest', hle⟩ : Passes ops naming more k (args.map leaves).sum false rest :=
      passes_open (by decide) hs fun rest hs => passes_arguments ih hc.ne_nil hs
    refine ⟨rest', hrest', Nat.le_trans hle ?_⟩
    rw [sureLeaves_name _ hl.kind]
    exact Nat.le_add_left _ _
  case tail_nil =>
    intro k stream _ hs
    rw [write_tail_nil] at hs
    exact passes_zero hs
  case tail_list =>
    intro a a' _ hw' ih ih' k stream hk hs
    rw [write_tail_list] at hs
    rw [leaves_two]
    refine passes_open (by decide) hs fun rest hs => ?_
    exact (ih.argument (b := true) (ends_tail hw'.proper hk) hs).and_then fun rest hs => ih' k rest hk hs
  case tail =>
    intro t hw hl ih k stream hk hs
    rw [write_tail hw.proper hl] at hs
    exact passes_open (by decide) hs fun rest hs => ih.argument hk hs

end Tree

end PrologTerms
