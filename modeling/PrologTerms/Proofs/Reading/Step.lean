import PrologTerms.Proofs.Operator
import PrologTerms.Proofs.Token.Digits
import PrologTerms.Reading.Clause
import Mathlib.Logic.Relation

/-!
# The steps of reading, lexeme by lexeme

What a step does is decided by the next lexeme and, where a name begins an operand, by the one behind
it.
-/

namespace PrologTerms

/-- The lexeme is a token of this kind and wording, with layout before it or not. -/
structure Lexeme.Is (l : Lexeme) (kind : TokenKind) (s : String) (before : Bool) : Prop where
  /-- The kind of the token. -/
  kind : l.token.kind = kind
  /-- What the token says. -/
  lexeme : l.token.lexeme = s
  /-- Whether there is layout before it. -/
  layoutBefore : l.layoutBefore = before

namespace Lexeme

variable {l : Lexeme} {s s' : String} {b : Bool} {kind : TokenKind}

theorem Is.isPunct (h : l.Is .punct s b) (s' : String) : l.isPunct s' = (s == s') := by
  rw [Lexeme.isPunct, Token.isPunct, h.kind, h.lexeme]
  rfl

theorem Is.isPunct_eq_false (h : l.Is kind s b) (hk : kind ≠ .punct) (s' : String) :
    l.isPunct s' = false := by
  rw [Lexeme.isPunct, Token.isPunct, h.kind]
  simp [hk]

/-- Is the lexeme a closing bracket, a comma, a bar or a full stop? -/
def closes (l : Lexeme) : Bool :=
  match l.token.kind with
  | .stop => true
  | .punct => l.token.lexeme ∈ [")", ",", "|", "]", "\x7d"]
  | _ => false

end Lexeme

/-! ## What a lexeme behind an operand does -/

/-- What the lexeme behind the term `e` can make of the bracket around both. -/
inductive Bracket.Next (e : Expr) (l : Lexeme) : Bracket → BracketStep → Prop
  /-- A round bracket is closed. -/
  | paren (hl : l.isPunct ")" = true) : Next e l .paren (.closed e)
  /-- A curly bracket is closed. -/
  | curly (hl : l.isPunct "\x7d" = true) : Next e l .curly (.closed (.curly e))
  /-- Another argument follows. -/
  | argument {name : String} {before : List Expr} (hl : l.isPunct "," = true) :
      Next e l (.arguments name before) (.again (.arguments name (e :: before)))
  /-- The arguments are complete. -/
  | call {name : String} {before : List Expr} (hl : l.isPunct ")" = true) :
      Next e l (.arguments name before) (.closed (.call name (e :: before).reverse))
  /-- Another element follows. -/
  | item {before : List Expr} (hl : l.isPunct "," = true) :
      Next e l (.items before) (.again (.items (e :: before)))
  /-- The rest of the list follows. -/
  | bar {before : List Expr} (hl : l.isPunct "|" = true) :
      Next e l (.items before) (.again (.tail (e :: before)))
  /-- The list is complete without a rest. -/
  | list {before : List Expr} (hl : l.isPunct "]" = true) :
      Next e l (.items before) (.closed (.list (e :: before).reverse .nil))
  /-- The list is complete with its rest. -/
  | tail {before : List Expr} (hl : l.isPunct "]" = true) :
      Next e l (.tail before) (.closed (.list before.reverse e))

theorem Bracket.next_spec {b : Bracket} {e : Expr} {l : Lexeme} {r : BracketStep}
    (h : b.next? e l = some r) : Bracket.Next e l b r := by
  cases b <;> simp only [Bracket.next?] at h <;> repeat' split at h
  all_goals cases h
  · exact .paren ‹_›
  · exact .curly ‹_›
  · exact .argument ‹_›
  · exact .call ‹_›
  · exact .item ‹_›
  · exact .bar ‹_›
  · exact .list ‹_›
  · exact .tail ‹_›

namespace Grammar

/-- An operator that is found behind an operand fits, and stands between operands or behind one. -/
theorem operator?_eq_some {g : Grammar} {l : Lexeme} {p max : Nat} {d : OpDef}
    (h : g.operator? p max l = some d) :
    d.priority ≤ max ∧ p ≤ d.leftMax ∧ ∃ name, l.operatorName? = some name ∧
      (d.stands .between = true ∧ g.ops.between? name = some d ∨
        d.stands .between = false ∧ g.ops.behind? name = some d) := by
  unfold operator? at h
  split at h
  · cases h
  · next name hn =>
    have hfits : d.fits p max = true := by
      rcases Option.or_eq_some_iff.1 h with h | ⟨-, h⟩
      · exact (Option.filter_eq_some_iff.1 h).2
      · exact (Option.filter_eq_some_iff.1 h).2
    simp only [OpDef.fits, Bool.and_eq_true, decide_eq_true_eq] at hfits
    refine ⟨hfits.1, hfits.2, name, hn, ?_⟩
    rcases Option.or_eq_some_iff.1 h with h | ⟨-, h⟩
    · have hd := (Option.filter_eq_some_iff.1 h).1
      exact .inl ⟨(OpTable.mem_of_find? hd).2, hd⟩
    · have hd := (Option.filter_eq_some_iff.1 h).1
      have hstands := (OpTable.mem_of_find? hd).2
      simp only [OpDef.stands, beq_iff_eq] at hstands
      exact .inr ⟨by simp [OpDef.stands, hstands], hd⟩

/-- A closing bracket, a comma, a bar or a full stop ends an operand, whatever the operators. -/
theorem endsOperand_of_closes {l : Lexeme} (g : Grammar) (hc : l.closes = true) :
    g.endsOperand l = true := by
  unfold Lexeme.closes at hc
  unfold endsOperand
  split at hc
  · next hk => rw [hk]
  · next hk => rw [hk]; exact hc
  · cases hc

/-! ## Some steps -/

/-- Some steps lead from one state to another. -/
def Goes (g : Grammar) : ReadState → ReadState → Prop :=
  Relation.ReflTransGen fun s s' => g.step s = .more s'

variable {g : Grammar} {F : List Frame} {M q : Nat} {l l' : Lexeme} {rest stream : LexemeStream}
  {e : Expr} {f : Frame} {s s' s'' : ReadState} {name : String} {b b' : Bool}

theorem Goes.refl (s : ReadState) : g.Goes s s := Relation.ReflTransGen.refl

theorem Goes.trans (h₁ : g.Goes s s') (h₂ : g.Goes s' s'') : g.Goes s s'' :=
  Relation.ReflTransGen.trans h₁ h₂

theorem Goes.of_step (h : g.step s = .more s') : g.Goes s s' := Relation.ReflTransGen.single h

/-- The result of reading is not changed by making some of the steps before. -/
theorem Goes.finish_eq (h : g.Goes s s') : g.finish s = g.finish s' := by
  induction h with
  | refl => rfl
  | tail _ h ih => exact ih.trans (finish_of_more h)

theorem goes_complete (h : g.operand M stream = .complete e rest) :
    g.Goes ⟨F, .operand M, stream⟩ ⟨F, .behind e 0 M, rest⟩ :=
  .of_step (by simp only [step, h])

theorem goes_opened {inner : Nat} (h : g.operand M stream = .opened f inner rest) :
    g.Goes ⟨F, .operand M, stream⟩ ⟨f :: F, .operand inner, rest⟩ :=
  .of_step (by simp only [step, h])

/-! ## Where an operand begins -/

theorem operand_var (hl : l.Is .var name b) (rest : LexemeStream) :
    g.operand M (.ok l :: rest) = .complete (.var name) rest := by
  simp only [operand, hl.kind, hl.lexeme]

theorem ofInteger_toDigits {n : Nat} (hl : l.Is .natural (String.ofList (Nat.toDigits 10 n)) b)
    {negative : Bool} {m : Int} (hm : m = if negative then -(n : Int) else n)
    (hfits : fitsWord m = true) (rest : LexemeStream) :
    Operand.ofInteger l.token negative rest = .complete (.int m) rest := by
  have hv := Token.naturalValue?_toDigits hl.kind hl.lexeme
  have hint : l.token.integer negative = .ok m := by
    rw [Token.integer, hv]
    subst hm
    exact if_pos hfits
  rw [Operand.ofInteger, hint]

theorem operand_natural {n : Nat} (hl : l.Is .natural (String.ofList (Nat.toDigits 10 n)) b)
    (hfits : fitsWord n = true) (rest : LexemeStream) :
    g.operand M (.ok l :: rest) = .complete (.int n) rest := by
  simp only [operand, hl.kind]
  exact ofInteger_toDigits hl (by rfl) hfits rest

/-- A minus sign with digits right behind it is a negative number. -/
theorem operand_negative {n : Nat} (hl : l.Is .name "-" b)
    (hl' : l'.Is .natural (String.ofList (Nat.toDigits 10 n)) false)
    (hfits : fitsWord (-(n : Int)) = true) (rest : LexemeStream) :
    g.operand M (.ok l :: .ok l' :: rest) = .complete (.int (-(n : Int))) rest := by
  have hopen : l'.isPunct "(" = false := hl'.isPunct_eq_false (by decide) _
  simp only [operand, hl.kind, hl.lexeme, Grammar.name, hl'.layoutBefore, hopen, hl'.kind,
    Bool.false_eq_true, if_false, and_self, if_true]
  exact ofInteger_toDigits hl' (by rfl) hfits rest

/-- A name with an opening bracket right behind it begins a compound term. -/
theorem operand_functor (hl : l.Is .name name b) (hl' : l'.Is .punct "(" false)
    (rest : LexemeStream) : g.operand M (.ok l :: .ok l' :: rest) =
      .opened (.contents (.arguments name []) M) argumentMax rest := by
  have hopen : l'.isPunct "(" = true := hl'.isPunct "("
  simp only [operand, hl.kind, hl.lexeme, Grammar.name, hl'.layoutBefore, hopen,
    Bool.false_eq_true, if_false, if_true]

/-- Another name is a prefix operator or an atom. -/
theorem operand_plain (hl : l.Is .name name b)
    (hl' : l'.layoutBefore = true ∨ l'.token.kind = .punct ∧ l'.isPunct "(" = false ∨
      l'.token.kind = .stop) (rest : LexemeStream) :
    g.operand M (.ok l :: .ok l' :: rest) = g.plainName M name (.ok l' :: rest) := by
  simp only [operand, hl.kind, hl.lexeme, Grammar.name]
  rcases hl' with h | ⟨hk, h⟩ | hk
  · rw [if_pos h]
  · simp [h, hk]
  · have h : l'.isPunct "(" = false := by simp [Lexeme.isPunct, Token.isPunct, hk]
    simp [h, hk]

theorem operand_paren (hl : l.Is .punct "(" b) (rest : LexemeStream) :
    g.operand M (.ok l :: rest) = .opened (.contents .paren M) OpTable.maxPriority rest := by
  simp [operand, hl.kind, hl.isPunct]

theorem operand_nil (hl : l.Is .punct "[" b) (hl' : l'.Is .punct "]" b') (rest : LexemeStream) :
    g.operand M (.ok l :: .ok l' :: rest) = .complete .nil rest := by
  simp [operand, hl.kind, hl.isPunct, hl'.isPunct, Operand.ofBracket]

theorem operand_items (hl : l.Is .punct "[" b) (hl' : l'.isPunct "]" = false)
    (rest : LexemeStream) : g.operand M (.ok l :: .ok l' :: rest) =
      .opened (.contents (.items []) M) argumentMax (.ok l' :: rest) := by
  simp [operand, hl.kind, hl.isPunct, hl', Operand.ofBracket]

theorem operand_braces (hl : l.Is .punct "\x7b" b) (hl' : l'.Is .punct "\x7d" b')
    (rest : LexemeStream) :
    g.operand M (.ok l :: .ok l' :: rest) = .complete (.atom "{}") rest := by
  simp [operand, hl.kind, hl.isPunct, hl'.isPunct, Operand.ofBracket]

theorem operand_curly (hl : l.Is .punct "\x7b" b) (hl' : l'.isPunct "\x7d" = false)
    (rest : LexemeStream) : g.operand M (.ok l :: .ok l' :: rest) =
      .opened (.contents .curly M) OpTable.maxPriority (.ok l' :: rest) := by
  simp [operand, hl.kind, hl.isPunct, hl', Operand.ofBracket]

/-! ## Operators behind an operand -/

theorem operator?_eq_none (h : ∀ name, l.operatorName? = some name → ∀ d,
    g.ops.between? name = some d ∨ g.ops.behind? name = some d → d.fits q M = false) :
    g.operator? q M l = none := by
  unfold operator?
  split
  · rfl
  · next name hn =>
    have hfits := h name hn
    rw [Option.or_eq_none_iff, Option.filter_eq_none_iff, Option.filter_eq_none_iff]
    constructor
    · intro d hd
      simp [hfits d (.inl hd)]
    · intro d hd
      simp [hfits d (.inr hd)]

theorem operator?_between {d : OpDef} (hl : l.operatorName? = some name)
    (hd : g.ops.between? name = some d) (hM : d.priority ≤ M) (hq : q ≤ d.leftMax) :
    g.operator? q M l = some d := by
  have hfits : d.fits q M = true := by simp [OpDef.fits, hM, hq]
  simp [operator?, hl, hd, hfits]

theorem operator?_behind {d : OpDef} (hl : l.operatorName? = some name)
    (hb : g.ops.between? name = none) (hd : g.ops.behind? name = some d) (hM : d.priority ≤ M)
    (hq : q ≤ d.leftMax) : g.operator? q M l = some d := by
  have hfits : d.fits q M = true := by simp [OpDef.fits, hM, hq]
  simp [operator?, hl, hb, hd, hfits]

theorem goes_between {d : OpDef} (h : g.operator? q M l = some d) (hd : d.stands .between = true) :
    g.Goes ⟨F, .behind e q M, .ok l :: rest⟩
      ⟨.rightOperand e l.operatorTerm d.priority M :: F, .operand d.rightMax, rest⟩ :=
  .of_step (by simp only [step, stepBehind, h, hd, if_true])

theorem goes_behind {d : OpDef} (h : g.operator? q M l = some d) (hd : d.stands .between = false) :
    g.Goes ⟨F, .behind e q M, .ok l :: rest⟩
      ⟨F, .behind (.compound [e] l.operatorTerm []) d.priority M, rest⟩ :=
  .of_step (by simp [step, stepBehind, h, hd])

/-! ## Behind an operand that no operator follows -/

theorem goes_rightOperand {left : Expr} {priority max : Nat} (h : g.operator? q M l = none) :
    g.Goes ⟨.rightOperand left name priority max :: F, .behind e q M, .ok l :: rest⟩
      ⟨F, .behind (.compound [left] name [e]) priority max, .ok l :: rest⟩ :=
  .of_step (by simp only [step, stepBehind, h, stepComplete])

theorem goes_onlyOperand {priority max : Nat} (h : g.operator? q M l = none) :
    g.Goes ⟨.onlyOperand name priority max :: F, .behind e q M, .ok l :: rest⟩
      ⟨F, .behind (.compound [] name [e]) priority max, .ok l :: rest⟩ :=
  .of_step (by simp only [step, stepBehind, h, stepComplete])

theorem goes_closed {bracket : Bracket} {max : Nat} {e' : Expr} (h : g.operator? q M l = none)
    (hb : bracket.next? e l = some (.closed e')) :
    g.Goes ⟨.contents bracket max :: F, .behind e q M, .ok l :: rest⟩
      ⟨F, .behind e' 0 max, rest⟩ :=
  .of_step (by simp only [step, stepBehind, h, stepComplete, stepBracket, hb])

theorem goes_again {bracket bracket' : Bracket} {max : Nat} (h : g.operator? q M l = none)
    (hb : bracket.next? e l = some (.again bracket')) :
    g.Goes ⟨.contents bracket max :: F, .behind e q M, .ok l :: rest⟩
      ⟨.contents bracket' max :: F, .operand argumentMax, rest⟩ :=
  .of_step (by simp only [step, stepBehind, h, stepComplete, stepBracket, hb])

/-- A term that nothing is around is what was read. -/
theorem finish_behind (h : g.operator? q M l = none) :
    g.finish ⟨[], .behind e q M, .ok l :: rest⟩ = .ok e (.ok l :: rest) := by
  have hstep : g.step ⟨[], .behind e q M, .ok l :: rest⟩ = .done (.ok e (.ok l :: rest)) := by
    simp only [step, stepBehind, h, stepComplete]
  exact finish_of_done hstep

end Grammar

end PrologTerms
