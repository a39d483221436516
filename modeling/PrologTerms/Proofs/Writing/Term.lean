import PrologTerms.Proofs.Operator
import PrologTerms.Proofs.Tree
import PrologTerms.Reading.Operand
import PrologTerms.Writing.Term

/-!
# The forms in which terms are written

A term is a variable, an integer, an atom or a stand-in, or it is written as an operator with its
operands, with brackets as a list or a curly term, or in functional notation. What is shown for each of
these forms holds of all terms whose compound terms have arguments. Of these the ones without stand-ins
and with integers that fit into 64 bits can be read back.
-/

namespace PrologTerms

namespace Tree

mutual

/-- The property holds of the tree and all its parts. -/
def Everywhere (P : Tree → Prop) : Tree → Prop
  | .var i => P (.var i)
  | .int n => P (.int n)
  | .big n => P (.big n)
  | .global n => P (.global n)
  | .atom name => P (.atom name)
  | .compound name args => P (.compound name args) ∧ EverywhereAll P args

/-- The property holds of the trees and all their parts. -/
def EverywhereAll (P : Tree → Prop) : List Tree → Prop
  | [] => True
  | t :: ts => t.Everywhere P ∧ EverywhereAll P ts

end

variable {ops : OpTable} {P Q : Tree → Prop} {name : String} {args : List Tree} {t : Tree}

theorem everywhereAll_iff (ts : List Tree) : EverywhereAll P ts ↔ ∀ t ∈ ts, t.Everywhere P := by
  induction ts with
  | nil => simp [EverywhereAll]
  | cons t ts ih => rw [EverywhereAll, ih, List.forall_mem_cons]

@[simp] theorem everywhere_compound : (compound name args).Everywhere P ↔
    P (.compound name args) ∧ ∀ t ∈ args, t.Everywhere P := by
  rw [Everywhere, everywhereAll_iff]

mutual

/-- What can be decided for every part can be decided for the tree. -/
def decideEverywhere (P : Tree → Prop) [DecidablePred P] : (t : Tree) → Decidable (t.Everywhere P)
  | .var i => inferInstanceAs (Decidable (P (.var i)))
  | .int n => inferInstanceAs (Decidable (P (.int n)))
  | .big n => inferInstanceAs (Decidable (P (.big n)))
  | .global n => inferInstanceAs (Decidable (P (.global n)))
  | .atom name => inferInstanceAs (Decidable (P (.atom name)))
  | .compound name args =>
    have := decideEverywhereAll P args
    inferInstanceAs (Decidable (P (.compound name args) ∧ EverywhereAll P args))

/-- The same of several trees. -/
def decideEverywhereAll (P : Tree → Prop) [DecidablePred P] :
    (ts : List Tree) → Decidable (EverywhereAll P ts)
  | [] => inferInstanceAs (Decidable True)
  | t :: ts =>
    have := decideEverywhere P t
    have := decideEverywhereAll P ts
    inferInstanceAs (Decidable (t.Everywhere P ∧ EverywhereAll P ts))

end

instance (P : Tree → Prop) [DecidablePred P] : DecidablePred (Everywhere P) := decideEverywhere P

/-- Does the tree not stand in for something that is kept elsewhere? -/
def plainPart : Tree → Bool
  | .big _ => false
  | .global _ => false
  | _ => true

/-- No part of the tree stands in for something that is kept elsewhere. -/
def IsPlain (t : Tree) : Prop := t.Everywhere fun u => plainPart u = true

instance : DecidablePred IsPlain := fun t => inferInstanceAs (Decidable (t.Everywhere _))

/-- Do compound terms have arguments? -/
def properPart : Tree → Prop
  | .compound _ args => args ≠ []
  | _ => True

/-- All compound terms in the tree have arguments. -/
def Proper (t : Tree) : Prop := t.Everywhere properPart

/-- What every part of a tree is like that can be written and read: its integers fit into 64 bits,
its compound terms have arguments, and nothing stands in for something else. -/
def writablePart : Tree → Prop
  | .int n => fitsWord n = true
  | .big _ => False
  | .global _ => False
  | .compound _ args => args ≠ []
  | _ => True

/-- The tree can be written and read. -/
def Writable (t : Tree) : Prop := t.Everywhere writablePart

theorem Everywhere.mono (h : t.Everywhere P) (hPQ : ∀ u, P u → Q u) : t.Everywhere Q := by
  induction t using Tree.induction with
  | compound name args ih =>
    obtain ⟨hp, hargs⟩ := everywhere_compound.1 h
    exact everywhere_compound.2 ⟨hPQ _ hp, fun t ht => ih t ht (hargs t ht)⟩
  | _ => exact hPQ _ h

theorem Everywhere.mp (h : t.Everywhere P) (hPQ : t.Everywhere fun u => P u → Q u) :
    t.Everywhere Q := by
  induction t using Tree.induction with
  | compound name args ih =>
    obtain ⟨hp, hargs⟩ := everywhere_compound.1 h
    obtain ⟨hpq, hargs'⟩ := everywhere_compound.1 hPQ
    exact everywhere_compound.2 ⟨hpq hp, fun t ht => ih t ht (hargs t ht) (hargs' t ht)⟩
  | _ => exact hPQ h

theorem Writable.proper (h : t.Writable) : t.Proper :=
  h.mono fun u hu => by
    cases u with
    | compound name args => exact hu
    | _ => trivial

/-- The arguments of a compound term. -/
def parts : Tree → List Tree
  | .compound _ args => args
  | _ => []

/-- A term of this name and these arguments is written in functional notation. -/
structure IsCall (ops : OpTable) (name : String) (args : List Tree) : Prop where
  /-- There is an argument. -/
  ne_nil : args ≠ []
  /-- A single argument is no operand, and not in curly brackets. -/
  one : ∀ a, args = [a] → name ≠ "{}" ∧ ops.before? name = none ∧ ops.behind? name = none
  /-- Two arguments are no operands, and not in square brackets. -/
  two : ∀ a b, args = [a, b] → name ≠ "." ∧ ops.between? name = none

/-- What holds of a term in each of the forms of writing, if it holds of its arguments, holds of all
terms whose compound terms have arguments. -/
@[elab_as_elim]
theorem Proper.induction (ops : OpTable) {P : Tree → Prop} (var : ∀ i, P (.var i))
    (int : ∀ n, P (.int n)) (big : ∀ n, P (.big n)) (global : ∀ n, P (.global n))
    (atom : ∀ name, P (.atom name))
    (curly : ∀ a, a.Proper → P a → P (.compound "{}" [a]))
    (before : ∀ name d a, name ≠ "{}" → ops.before? name = some d → a.Proper → P a →
      P (.compound name [a]))
    (behind : ∀ name d a, name ≠ "{}" → ops.before? name = none → ops.behind? name = some d →
      a.Proper → P a → P (.compound name [a]))
    (list : ∀ a b, a.Proper → b.Proper → P a → P b → P (.compound "." [a, b]))
    (between : ∀ name d a b, name ≠ "." → ops.between? name = some d → a.Proper → b.Proper →
      P a → P b → P (.compound name [a, b]))
    (call : ∀ name args, IsCall ops name args → (∀ t ∈ args, t.Proper) → (∀ t ∈ args, P t) →
      P (.compound name args))
    {t : Tree} (h : t.Proper) : P t := by
  induction t using Tree.induction with
  | var i => exact var i
  | int n => exact int n
  | big n => exact big n
  | global n => exact global n
  | atom name => exact atom name
  | compound name args ih =>
    obtain ⟨hne, hargs⟩ := everywhere_compound.1 h
    have hP : ∀ t ∈ args, P t := fun t ht => ih t ht (hargs t ht)
    match args, hne, hargs, hP with
    | [a], hne, hargs, hP =>
      have hwa : a.Proper := hargs a List.mem_cons_self
      have ha : P a := hP a List.mem_cons_self
      by_cases hname : name = "{}"
      · subst hname
        exact curly a hwa ha
      · cases hd : ops.before? name with
        | some d => exact before name d a hname hd hwa ha
        | none =>
          cases hd' : ops.behind? name with
          | some d => exact behind name d a hname hd hd' hwa ha
          | none => exact call name [a] ⟨hne, fun _ _ => ⟨hname, hd, hd'⟩, by simp⟩ hargs hP
    | [a, b], hne, hargs, hP =>
      have hwa : a.Proper := hargs a List.mem_cons_self
      have hwb : b.Proper := hargs b (List.mem_cons_of_mem _ List.mem_cons_self)
      have ha : P a := hP a List.mem_cons_self
      have hb : P b := hP b (List.mem_cons_of_mem _ List.mem_cons_self)
      by_cases hname : name = "."
      · subst hname
        exact list a b hwa hwb ha hb
      · cases hd : ops.between? name with
        | some d => exact between name d a b hname hd hwa hwb ha hb
        | none => exact call name [a, b] ⟨hne, by simp, fun _ _ _ => ⟨hname, hd⟩⟩ hargs hP
    | a :: b :: c :: args, hne, hargs, hP => exact call name _ ⟨hne, by simp, by simp⟩ hargs hP

/-! ## Equations for the forms

A bar leads a term that is the tail of a list; elsewhere nothing leads. -/

section Forms

variable {p : Place} {k : List Piece} {d : OpDef} {a b : Tree}

theorem lead_of_ne_tail (hp : p ≠ .tail) (k : List Piece) : p.lead k = k := if_neg hp

theorem write_var (hp : p ≠ .tail) (i : Address) : (var i).write ops p k = .var i :: k := by
  show p.lead (.var i :: k) = _
  rw [lead_of_ne_tail hp]

theorem write_int (hp : p ≠ .tail) (n : Int) : (int n).write ops p k = .int n :: k := by
  show p.lead (.int n :: k) = _
  rw [lead_of_ne_tail hp]

theorem write_big (hp : p ≠ .tail) (n : Nat) : (big n).write ops p k =
    .functor "$big" :: .punct '(' :: .int n :: .punct ')' :: k := by
  show p.lead _ = _
  rw [lead_of_ne_tail hp]

theorem write_global (hp : p ≠ .tail) (n : Nat) : (global n).write ops p k =
    .functor "$gbl" :: .punct '(' :: .int n :: .punct ')' :: k := by
  show p.lead _ = _
  rw [lead_of_ne_tail hp]

theorem write_atom (hp : p ≠ .tail) (name : String) : (atom name).write ops p k =
    bracketed (p.isOperand && ops.isOp name) (.atom name :: ·) k := by
  show (if p = .tail ∧ name = "[]" then k else _) = _
  rw [if_neg fun h => hp h.1, lead_of_ne_tail hp]

theorem write_curly (hp : p ≠ .tail) : (compound "{}" [a]).write ops p k =
    .punct '{' :: a.write ops .whole (.punct '}' :: k) := by
  show p.lead (.punct '{' :: a.write ops .whole (.punct '}' :: k)) = _
  rw [lead_of_ne_tail hp]

theorem write_of_before? (hname : name ≠ "{}") (hd : ops.before? name = some d) :
    (compound name [a]).write ops p k = p.lead (bracketed (p.max < d.priority)
      (fun k => .atom name :: .space :: a.write ops (.operand d.rightMax) k) k) := by
  show (if name = "{}" then _ else _) = _
  rw [if_neg hname, hd]

theorem write_before (hp : p ≠ .tail) (hname : name ≠ "{}") (hd : ops.before? name = some d) :
    (compound name [a]).write ops p k = bracketed (p.max < d.priority)
      (fun k => .atom name :: .space :: a.write ops (.operand d.rightMax) k) k := by
  rw [write_of_before? hname hd, lead_of_ne_tail hp]

theorem write_of_behind? (hname : name ≠ "{}") (hb : ops.before? name = none)
    (hd : ops.behind? name = some d) :
    (compound name [a]).write ops p k = p.lead (bracketed (p.max < d.priority)
      (fun k => a.write ops (.operand d.leftMax) (.space :: .atom name :: k)) k) := by
  show (if name = "{}" then _ else _) = _
  rw [if_neg hname, hb, hd]

theorem write_behind (hp : p ≠ .tail) (hname : name ≠ "{}") (hb : ops.before? name = none)
    (hd : ops.behind? name = some d) :
    (compound name [a]).write ops p k = bracketed (p.max < d.priority)
      (fun k => a.write ops (.operand d.leftMax) (.space :: .atom name :: k)) k := by
  rw [write_of_behind? hname hb hd, lead_of_ne_tail hp]

theorem write_list (hp : p ≠ .tail) : (compound "." [a, b]).write ops p k =
    .punct '[' :: a.write ops .argument (b.write ops .tail (.punct ']' :: k)) := by
  show (if p = .tail then _ else _) = _
  rw [if_neg hp]

theorem write_of_between? (hname : name ≠ ".") (hd : ops.between? name = some d) :
    (compound name [a, b]).write ops p k = p.lead (bracketed (p.max < d.priority)
      (fun k => a.write ops (.operand d.leftMax)
        (betweenOperands name (b.write ops (.operand d.rightMax) k))) k) := by
  show (if name = "." then _ else _) = _
  rw [if_neg hname, hd]

theorem write_between (hp : p ≠ .tail) (hname : name ≠ ".") (hd : ops.between? name = some d) :
    (compound name [a, b]).write ops p k = bracketed (p.max < d.priority)
      (fun k => a.write ops (.operand d.leftMax)
        (betweenOperands name (b.write ops (.operand d.rightMax) k))) k := by
  rw [write_of_between? hname hd, lead_of_ne_tail hp]

theorem write_of_isCall (h : IsCall ops name args) : (compound name args).write ops p k =
    p.lead (.functor name :: .punct '(' :: writeArgs ops args (.punct ')' :: k)) := by
  match args, h with
  | [a], h =>
    obtain ⟨hname, hb, hd⟩ := h.one a rfl
    show (if name = "{}" then _ else _) = _
    rw [if_neg hname, hb, hd]
    rfl
  | [a, b], h =>
    obtain ⟨hname, hd⟩ := h.two a b rfl
    show (if name = "." then _ else _) = _
    rw [if_neg hname, hd]
    rfl
  | [], h => exact absurd rfl h.ne_nil
  | a :: b :: c :: args, h => rfl

theorem write_call (hp : p ≠ .tail) (h : IsCall ops name args) : (compound name args).write ops p k =
    .functor name :: .punct '(' :: writeArgs ops args (.punct ')' :: k) := by
  rw [write_of_isCall h, lead_of_ne_tail hp]

/-! ## Tails of lists -/

/-- The tree is a list cell or the empty list. -/
def IsList (t : Tree) : Prop := t = .atom "[]" ∨ ∃ a b, t = .compound "." [a, b]

theorem write_tail_nil : (atom "[]").write ops .tail k = k := if_pos ⟨rfl, rfl⟩

theorem write_tail_list : (compound "." [a, b]).write ops .tail k =
    comma (a.write ops .argument (b.write ops .tail k)) := if_pos rfl

/-- A tail that is no list is written behind a bar. -/
theorem write_tail (ht : t.Proper) (hl : ¬ t.IsList) :
    t.write ops .tail k = .punct '|' :: t.write ops .argument k := by
  have hp : Place.argument ≠ .tail := by decide
  have hlead : ∀ k, Place.tail.lead k = .punct '|' :: k := fun k => if_pos rfl
  revert hl
  refine Proper.induction ops ?var ?int ?big ?global ?atom ?curly ?before ?behind ?list ?between ?call
    ht
  case var =>
    intro i _
    rw [write_var hp]
    exact hlead _
  case int =>
    intro n _
    rw [write_int hp]
    exact hlead _
  case big =>
    intro n _
    rw [write_big hp]
    exact hlead _
  case global =>
    intro n _
    rw [write_global hp]
    exact hlead _
  case atom =>
    intro name hl
    have hne : name ≠ "[]" := fun h => hl (.inl (h ▸ rfl))
    rw [write_atom hp]
    show (if Place.tail = .tail ∧ name = "[]" then k else _) = _
    rw [if_neg fun h => hne h.2, hlead]
    rfl
  case curly =>
    intro a _ _ _
    rw [write_curly hp]
    exact hlead _
  case before =>
    intro name d a hname hd _ _ _
    rw [write_before hp hname hd, write_of_before? hname hd, hlead]
    rfl
  case behind =>
    intro name d a hname hb hd _ _ _
    rw [write_behind hp hname hb hd, write_of_behind? hname hb hd, hlead]
    rfl
  case list =>
    intro a b _ _ _ _ hl
    exact absurd (.inr ⟨a, b, rfl⟩) hl
  case between =>
    intro name d a b hname hd _ _ _ _ _
    rw [write_between hp hname hd, write_of_between? hname hd, hlead]
    rfl
  case call =>
    intro name args h _ _ _
    rw [write_call hp h, write_of_isCall h, hlead]

end Forms

/-- What is shown for the forms of terms, and with it for the forms of tails of lists, holds of all
terms whose compound terms have arguments. -/
theorem Proper.tail_induction (ops : OpTable) {P T : Tree → Prop} (var : ∀ i, P (.var i))
    (int : ∀ n, P (.int n)) (big : ∀ n, P (.big n)) (global : ∀ n, P (.global n))
    (atom : ∀ name, P (.atom name))
    (curly : ∀ a, a.Proper → P a → P (.compound "{}" [a]))
    (before : ∀ name d a, name ≠ "{}" → ops.before? name = some d → a.Proper → P a →
      P (.compound name [a]))
    (behind : ∀ name d a, name ≠ "{}" → ops.before? name = none → ops.behind? name = some d →
      a.Proper → P a → P (.compound name [a]))
    (list : ∀ a b, a.Proper → b.Proper → P a → T b → P (.compound "." [a, b]))
    (between : ∀ name d a b, name ≠ "." → ops.between? name = some d → a.Proper → b.Proper →
      P a → P b → P (.compound name [a, b]))
    (call : ∀ name args, IsCall ops name args → (∀ t ∈ args, t.Proper) → (∀ t ∈ args, P t) →
      P (.compound name args))
    (tail_nil : T (.atom "[]")) (tail_list : ∀ a b, a.Proper → b.Proper → P a → T b →
      T (.compound "." [a, b]))
    (tail : ∀ t, t.Proper → ¬ t.IsList → P t → T t) {t : Tree} (h : t.Proper) : P t ∧ T t := by
  -- a tail is a list or written behind a bar
  have both : ∀ t, t.Proper → P t →
      (∀ a b, t = .compound "." [a, b] → (a.Proper ∧ P a) ∧ b.Proper ∧ T b) → P t ∧ T t := by
    intro t ht hP hl
    refine ⟨hP, ?_⟩
    by_cases hlist : t.IsList
    · rcases hlist with rfl | ⟨a, b, rfl⟩
      · exact tail_nil
      · obtain ⟨⟨hwa, ha⟩, hwb, hb⟩ := hl a b rfl
        exact tail_list a b hwa hwb ha hb
    · exact tail t ht hlist hP
  induction t using Tree.induction with
  | var i => exact both _ h (var i) (by simp)
  | int n => exact both _ h (int n) (by simp)
  | big n => exact both _ h (big n) (by simp)
  | global n => exact both _ h (global n) (by simp)
  | atom name => exact both _ h (atom name) (by simp)
  | compound name args ih =>
    have hargs := (everywhere_compound.1 h).2
    have hall : ∀ t ∈ args, P t ∧ T t := fun t ht => ih t ht (hargs t ht)
    have hl : ∀ a b, compound name args = .compound "." [a, b] →
        (a.Proper ∧ P a) ∧ b.Proper ∧ T b := by
      intro a b e
      rw [compound.injEq] at e
      obtain ⟨-, rfl⟩ := e
      exact ⟨⟨hargs a (by simp), (hall a (by simp)).1⟩, hargs b (by simp), (hall b (by simp)).2⟩
    refine both _ h ?_ hl
    -- the form of the term itself
    have hform := Proper.induction ops (P := fun t => (∀ u ∈ t.parts, P u ∧ T u) → P t)
    refine hform ?_ ?_ ?_ ?_ ?_ ?_ ?_ ?_ ?_ ?_ ?_ h hall
    · exact fun i _ => var i
    · exact fun n _ => int n
    · exact fun n _ => big n
    · exact fun n _ => global n
    · exact fun name _ => atom name
    · exact fun a hw _ hu => curly a hw (hu a (by simp [parts])).1
    · exact fun name d a hn hd hw _ hu => before name d a hn hd hw (hu a (by simp [parts])).1
    · exact fun name d a hn hb hd hw _ hu =>
        behind name d a hn hb hd hw (hu a (by simp [parts])).1
    · exact fun a b hwa hwb _ _ hu =>
        list a b hwa hwb (hu a (by simp [parts])).1 (hu b (by simp [parts])).2
    · exact fun name d a b hn hd hwa hwb _ _ hu =>
        between name d a b hn hd hwa hwb (hu a (by simp [parts])).1 (hu b (by simp [parts])).1
    · exact fun name args hc hw _ hu => call name args hc hw fun t ht => (hu t ht).1

/-- The same of all terms that can be written and read. -/
theorem Writable.tail_induction (ops : OpTable) {P T : Tree → Prop} (var : ∀ i, P (.var i))
    (int : ∀ n, fitsWord n = true → P (.int n)) (atom : ∀ name, P (.atom name))
    (curly : ∀ a, a.Writable → P a → P (.compound "{}" [a]))
    (before : ∀ name d a, name ≠ "{}" → ops.before? name = some d → a.Writable → P a →
      P (.compound name [a]))
    (behind : ∀ name d a, name ≠ "{}" → ops.before? name = none → ops.behind? name = some d →
      a.Writable → P a → P (.compound name [a]))
    (list : ∀ a b, a.Writable → b.Writable → P a → T b → P (.compound "." [a, b]))
    (between : ∀ name d a b, name ≠ "." → ops.between? name = some d → a.Writable → b.Writable →
      P a → P b → P (.compound name [a, b]))
    (call : ∀ name args, IsCall ops name args → (∀ t ∈ args, t.Writable) → (∀ t ∈ args, P t) →
      P (.compound name args))
    (tail_nil : T (.atom "[]")) (tail_list : ∀ a b, a.Writable → b.Writable → P a → T b →
      T (.compound "." [a, b]))
    (tail : ∀ t, t.Writable → ¬ t.IsList → P t → T t) {t : Tree} (h : t.Writable) : P t ∧ T t := by
  have part : ∀ {name : String} {args : List Tree}, (compound name args).Writable →
      ∀ a ∈ args, a.Writable := fun h => (everywhere_compound.1 h).2
  have hboth : (t.Writable → P t) ∧ (t.Writable → T t) := by
    refine Proper.tail_induction ops (P := fun t => t.Writable → P t) (T := fun t => t.Writable → T t)
      ?var ?int ?big ?global ?atom ?curly ?before ?behind ?list ?between ?call ?tail_nil ?tail_list
      ?tail h.proper
    case var => exact fun i _ => var i
    case int => exact int
    case big => exact fun n h => h.elim
    case global => exact fun n h => h.elim
    case atom => exact fun name _ => atom name
    case curly =>
      intro a _ ih h
      have ha := part h a (by simp)
      exact curly a ha (ih ha)
    case before =>
      intro name d a hn hd _ ih h
      have ha := part h a (by simp)
      exact before name d a hn hd ha (ih ha)
    case behind =>
      intro name d a hn hb hd _ ih h
      have ha := part h a (by simp)
      exact behind name d a hn hb hd ha (ih ha)
    case list =>
      intro a b _ _ iha ihb h
      have ha := part h a (by simp)
      have hb := part h b (by simp)
      exact list a b ha hb (iha ha) (ihb hb)
    case between =>
      intro name d a b hn hd _ _ iha ihb h
      have ha := part h a (by simp)
      have hb := part h b (by simp)
      exact between name d a b hn hd ha hb (iha ha) (ihb hb)
    case call =>
      intro name args hc _ ih h
      exact call name args hc (part h) fun t ht => ih t ht (part h t ht)
    case tail_nil => exact fun _ => tail_nil
    case tail_list =>
      intro a b _ _ iha ihb h
      have ha := part h a (by simp)
      have hb := part h b (by simp)
      exact tail_list a b ha hb (iha ha) (ihb hb)
    case tail => exact fun t _ hl ih h => tail t h hl (ih h)
  exact ⟨hboth.1 h, hboth.2 h⟩

/-- What is shown for the forms of terms holds of all terms that can be written and read. -/
@[elab_as_elim]
theorem Writable.induction (ops : OpTable) {P : Tree → Prop} (var : ∀ i, P (.var i))
    (int : ∀ n, fitsWord n = true → P (.int n)) (atom : ∀ name, P (.atom name))
    (curly : ∀ a, a.Writable → P a → P (.compound "{}" [a]))
    (before : ∀ name d a, name ≠ "{}" → ops.before? name = some d → a.Writable → P a →
      P (.compound name [a]))
    (behind : ∀ name d a, name ≠ "{}" → ops.before? name = none → ops.behind? name = some d →
      a.Writable → P a → P (.compound name [a]))
    (list : ∀ a b, a.Writable → b.Writable → P a → P b → P (.compound "." [a, b]))
    (between : ∀ name d a b, name ≠ "." → ops.between? name = some d → a.Writable → b.Writable →
      P a → P b → P (.compound name [a, b]))
    (call : ∀ name args, IsCall ops name args → (∀ t ∈ args, t.Writable) → (∀ t ∈ args, P t) →
      P (.compound name args))
    {t : Tree} (h : t.Writable) : P t :=
  (Writable.tail_induction ops (T := P) var int atom curly before behind list between call (atom "[]")
    list (fun _ _ _ h => h) h).1

end Tree

end PrologTerms
