import PrologTerms.Reading.Clause
import Mathlib.Data.List.Basic

/-!
# Reading stops at full stops

No term goes on behind a full stop, and reading one does not look behind it. The clauses of a stream
that ends with a full stop are therefore the first clauses of every longer one.
-/

namespace PrologTerms

/-- The stream ends with a full stop. -/
def LexemeStream.Closed (stream : LexemeStream) : Prop :=
  ∃ l, stream.getLast? = some (.ok l) ∧ l.token.kind = .stop

/-- The same beginning of an operand with more lexemes behind it. -/
def Operand.before (more : LexemeStream) : Operand → Operand
  | .complete e rest => .complete e (rest ++ more)
  | .opened f max rest => .opened f max (rest ++ more)
  | .failed e rest => .failed e (rest ++ more)

/-- What is left behind the beginning of an operand ends with a full stop. -/
def Operand.Closed : Operand → Prop
  | .complete _ rest => rest.Closed
  | .opened _ _ rest => rest.Closed
  | .failed _ _ => True

/-- The same place in a term with more lexemes behind it. -/
def ReadState.before (more : LexemeStream) (s : ReadState) : ReadState :=
  { s with stream := s.stream ++ more }

/-- The same result with more lexemes behind it. -/
def ReadResult.before (more : LexemeStream) (r : ReadResult) : ReadResult :=
  ⟨r.value, r.rest ++ more⟩

/-- The same step with more lexemes behind it. -/
def Progress.before (more : LexemeStream) :
    Progress ReadState ReadResult → Progress ReadState ReadResult
  | .more s => .more (s.before more)
  | .done r => .done (r.before more)

/-- What is left behind a step ends with a full stop, unless there is an error. -/
def Progress.Closed : Progress ReadState ReadResult → Prop
  | .more s => s.stream.Closed
  | .done r => ∀ e, r.value = .ok e → r.rest.Closed

namespace LexemeStream

variable {stream rest : LexemeStream} {l : Lexeme} {x : Except ReadError Lexeme}

theorem Closed.exists_cons (h : stream.Closed) : ∃ x rest, stream = x :: rest := by
  obtain ⟨l, hlast, -⟩ := h
  cases stream with
  | nil => cases hlast
  | cons x rest => exact ⟨x, rest, rfl⟩

/-- What is left of a stream that ends with a full stop ends with it too, or is empty. -/
theorem Closed.suffix (h : stream.Closed) (hs : rest <:+ stream) : rest = [] ∨ rest.Closed := by
  obtain ⟨l, hlast, hl⟩ := h
  obtain ⟨front, rfl⟩ := hs
  by_cases hrest : rest = []
  · exact .inl hrest
  · rw [List.getLast?_append_of_ne_nil _ hrest] at hlast
    exact .inr ⟨l, hlast, hl⟩

/-- A full stop at the end is still there when something else has been read. -/
theorem Closed.tail (h : Closed (.ok l :: rest)) (hl : l.token.kind ≠ .stop) : rest.Closed := by
  rcases h.suffix (List.suffix_cons _ rest) with rfl | hrest
  · obtain ⟨l', hlast, hl'⟩ := h
    cases hlast
    exact absurd hl' hl
  · exact hrest

end LexemeStream

namespace Grammar

variable {g g' : Grammar} {rest stream : LexemeStream} {l : Lexeme} (more : LexemeStream)

/-! ## The beginning of an operand -/

theorem endsOperand_congr (hg : g'.ops = g.ops) (l : Lexeme) : g'.endsOperand l = g.endsOperand l := by
  rw [endsOperand, endsOperand, hg]

theorem plainName_before (hg : g'.ops = g.ops) (max : Nat) (name : String) (h : stream.Closed) :
    g'.plainName max name (stream ++ more) = (g.plainName max name stream).before more := by
  obtain ⟨x, rest, rfl⟩ := h.exists_cons
  have hfollows : g'.operandFollows (x :: rest ++ more) = g.operandFollows (x :: rest) := by
    cases x with
    | error e => rfl
    | ok l => exact congrArg not (endsOperand_congr hg l)
  rw [plainName, plainName, hg, hfollows]
  repeat' split
  all_goals rfl

theorem ofInteger_before (t : Token) (negative : Bool) (rest : LexemeStream) :
    Operand.ofInteger t negative (rest ++ more) = (Operand.ofInteger t negative rest).before more := by
  unfold Operand.ofInteger
  split <;> rfl

theorem name_before (hg : g'.ops = g.ops) (max : Nat) (name : String) (h : stream.Closed) :
    g'.name max name (stream ++ more) = (g.name max name stream).before more := by
  have hplain := plainName_before more hg max name h
  obtain ⟨x, rest, rfl⟩ := h.exists_cons
  cases x with
  | error e => rfl
  | ok l =>
    rw [List.cons_append] at hplain ⊢
    simp only [Grammar.name, hplain, ofInteger_before]
    repeat' split
    all_goals rfl

theorem ofBracket_before (close : String) (empty : Expr) (f : Frame) (max : Nat) (h : stream.Closed) :
    Operand.ofBracket close empty f max (stream ++ more) =
      (Operand.ofBracket close empty f max stream).before more := by
  obtain ⟨x, rest, rfl⟩ := h.exists_cons
  cases x with
  | error e => rfl
  | ok l =>
    rw [List.cons_append, Operand.ofBracket, Operand.ofBracket]
    split <;> rfl

theorem operand_before (hg : g'.ops = g.ops) (max : Nat) (h : stream.Closed) :
    g'.operand max (stream ++ more) = (g.operand max stream).before more := by
  obtain ⟨x, rest, rfl⟩ := h.exists_cons
  cases x with
  | error e => rfl
  | ok l =>
    rw [List.cons_append]
    cases hk : l.token.kind with
    | natural =>
      simp only [operand, hk]
      exact ofInteger_before more _ _ _
    | name =>
      simp only [operand, hk]
      exact name_before more hg max _ (h.tail (by simp [hk]))
    | punct =>
      have hrest := h.tail (by simp [hk])
      simp only [operand, hk, ofBracket_before more _ _ _ _ hrest]
      repeat' split
      all_goals rfl
    | _ =>
      simp only [operand, hk]
      rfl

/-! ## The full stop is left -/

theorem kind_of_isPunct {s : String} (h : l.isPunct s = true) : l.token.kind ≠ .stop := by
  rw [Lexeme.isPunct, Token.isPunct, Bool.and_eq_true, beq_iff_eq] at h
  simp [h.1]

theorem kind_of_next? {b : Bracket} {e : Expr} {r : BracketStep} (h : b.next? e l = some r) :
    l.token.kind ≠ .stop := by
  intro hk
  have hnot : ∀ s, l.isPunct s = false := fun s =>
    Bool.eq_false_iff.2 fun hs => kind_of_isPunct hs hk
  cases b <;> simp [Bracket.next?, hnot] at h

theorem kind_of_operator? {priority max : Nat} {d : OpDef} (h : g.operator? priority max l = some d) :
    l.token.kind ≠ .stop := by
  intro hk
  simp [operator?, Lexeme.operatorName?, hk] at h

theorem closed_plainName (max : Nat) (name : String) (h : stream.Closed) :
    (g.plainName max name stream).Closed := by
  unfold plainName
  repeat' split
  all_goals exact h

theorem closed_ofInteger {t : Token} {negative : Bool} (h : rest.Closed) :
    (Operand.ofInteger t negative rest).Closed := by
  unfold Operand.ofInteger
  split
  · exact h
  · trivial

theorem closed_name (max : Nat) (name : String) (h : stream.Closed) :
    (g.name max name stream).Closed := by
  have hplain := closed_plainName (g := g) max name h
  obtain ⟨x, rest, rfl⟩ := h.exists_cons
  cases x with
  | error e => trivial
  | ok l =>
    unfold Grammar.name
    dsimp only
    split
    · exact hplain
    · split
      · next hl => exact h.tail (kind_of_isPunct hl)
      · split
        · next hl => exact closed_ofInteger (h.tail (by simp [hl.2]))
        · split
          · trivial
          · exact hplain

theorem closed_ofBracket {close : String} {empty : Expr} {f : Frame} {max : Nat} (h : stream.Closed) :
    (Operand.ofBracket close empty f max stream).Closed := by
  obtain ⟨x, rest, rfl⟩ := h.exists_cons
  cases x with
  | error e => trivial
  | ok l =>
    rw [Operand.ofBracket]
    split
    · next hl => exact h.tail (kind_of_isPunct hl)
    · exact h

theorem closed_operand (max : Nat) (h : stream.Closed) : (g.operand max stream).Closed := by
  obtain ⟨x, rest, rfl⟩ := h.exists_cons
  cases x with
  | error e => trivial
  | ok l =>
    cases hk : l.token.kind with
    | stop => simp only [operand, hk]; trivial
    | layout => simp only [operand, hk]; trivial
    | float => simp only [operand, hk]; trivial
    | natural =>
      simp only [operand, hk]
      exact closed_ofInteger (h.tail (by simp [hk]))
    | var =>
      simp only [operand, hk]
      exact h.tail (by simp [hk])
    | string =>
      simp only [operand, hk]
      exact h.tail (by simp [hk])
    | name =>
      simp only [operand, hk]
      exact closed_name max _ (h.tail (by simp [hk]))
    | punct =>
      have hrest := h.tail (by simp [hk])
      simp only [operand, hk]
      split
      · exact hrest
      · split
        · exact closed_ofBracket hrest
        · split
          · exact closed_ofBracket hrest
          · trivial

/-! ## Steps -/

theorem stepBracket_before (b : Bracket) (max : Nat) (frames : List Frame) (e : Expr)
    (h : stream.Closed) : g'.stepBracket b max frames e (stream ++ more) =
      (g.stepBracket b max frames e stream).before more := by
  obtain ⟨x, rest, rfl⟩ := h.exists_cons
  cases x with
  | error err => rfl
  | ok l =>
    rw [List.cons_append, stepBracket, stepBracket]
    split <;> rfl

theorem stepComplete_before (e : Expr) (frames : List Frame) (h : stream.Closed) :
    g'.stepComplete e (stream ++ more) frames = (g.stepComplete e stream frames).before more := by
  cases frames with
  | nil => rfl
  | cons f frames =>
    cases f with
    | contents b max => exact stepBracket_before more b max frames e h
    | _ => rfl

theorem stepBehind_before (hg : g'.ops = g.ops) (frames : List Frame) (e : Expr) (priority max : Nat)
    (h : stream.Closed) : g'.stepBehind frames e priority max (stream ++ more) =
      (g.stepBehind frames e priority max stream).before more := by
  have hcomplete : g'.stepComplete e (stream ++ more) frames = (g.stepComplete e stream frames).before more :=
    stepComplete_before more e frames h
  obtain ⟨x, rest, rfl⟩ := h.exists_cons
  cases x with
  | error err => rfl
  | ok l =>
    have hoperator : g'.operator? priority max l = g.operator? priority max l := by
      rw [operator?, operator?, hg]
    rw [List.cons_append] at hcomplete ⊢
    simp only [stepBehind, hoperator, hcomplete]
    repeat' split
    all_goals rfl

/-- In front of a full stop, a step does not depend on what comes behind it. -/
theorem step_before (hg : g'.ops = g.ops) {s : ReadState} (h : s.stream.Closed) :
    g'.step (s.before more) = (g.step s).before more := by
  obtain ⟨frames, focus, stream⟩ := s
  cases focus with
  | behind e priority max => exact stepBehind_before more hg frames e priority max h
  | operand max =>
    simp only [step, ReadState.before, operand_before more hg max h]
    cases g.operand max stream <;> rfl

theorem closed_stepBracket (b : Bracket) (max : Nat) (frames : List Frame) (e : Expr)
    (h : stream.Closed) : (g.stepBracket b max frames e stream).Closed := by
  obtain ⟨x, rest, rfl⟩ := h.exists_cons
  cases x with
  | error err => exact fun _ hv => by cases hv
  | ok l =>
    rw [stepBracket]
    split
    · next hl => exact h.tail (kind_of_next? hl)
    · next hl => exact h.tail (kind_of_next? hl)
    · exact fun _ hv => by cases hv

theorem closed_stepComplete (e : Expr) (frames : List Frame) (h : stream.Closed) :
    (g.stepComplete e stream frames).Closed := by
  cases frames with
  | nil => exact fun _ _ => h
  | cons f frames =>
    cases f with
    | contents b max => exact closed_stepBracket b max frames e h
    | _ => exact h

theorem closed_stepBehind (frames : List Frame) (e : Expr) (priority max : Nat) (h : stream.Closed) :
    (g.stepBehind frames e priority max stream).Closed := by
  have hcomplete := closed_stepComplete (g := g) e frames h
  obtain ⟨x, rest, rfl⟩ := h.exists_cons
  cases x with
  | error err => exact fun _ hv => by cases hv
  | ok l =>
    rw [stepBehind]
    split
    · exact hcomplete
    · next hd =>
      have hrest := h.tail (kind_of_operator? hd)
      split <;> exact hrest

/-- No step takes the full stop. -/
theorem closed_step {s : ReadState} (h : s.stream.Closed) : (g.step s).Closed := by
  obtain ⟨frames, focus, stream⟩ := s
  cases focus with
  | behind e priority max => exact closed_stepBehind frames e priority max h
  | operand max =>
    have ho := closed_operand (g := g) max h
    simp only [step]
    cases e : g.operand max stream with
    | failed err rest => exact fun _ hv => by cases hv
    | _ =>
      rw [e] at ho
      exact ho

/-! ## Terms and clauses -/

theorem finish_before (hg : g'.ops = g.ops) {s : ReadState} (h : s.stream.Closed) :
    g'.finish (s.before more) = (g.finish s).before more ∧
      ∀ e, (g.finish s).value = .ok e → (g.finish s).rest.Closed := by
  -- by induction on the steps: none of them looks behind the full stop, or takes it
  fun_induction Grammar.finish g s with
  | case1 s s' hstep ih =>
    have hstep' := step_before more hg h
    have hclosed := closed_step (g := g) h
    rw [hstep] at hstep' hclosed
    exact ⟨(finish_of_more hstep').trans (ih hclosed).1, (ih hclosed).2⟩
  | case2 s r hstep =>
    have hstep' := step_before more hg h
    have hclosed := closed_step (g := g) h
    rw [hstep] at hstep' hclosed
    exact ⟨finish_of_done hstep', hclosed⟩

theorem clauseEnd_before (e : Expr) (h : stream.Closed) :
    g'.clauseEnd e (stream ++ more) = (g.clauseEnd e stream).before more := by
  obtain ⟨x, rest, rfl⟩ := h.exists_cons
  cases x with
  | error err => rfl
  | ok l =>
    rw [List.cons_append, clauseEnd, clauseEnd]
    repeat' split
    all_goals rfl

theorem closed_clauseEnd {e e' : Expr} (h : stream.Closed) (hv : (g.clauseEnd e stream).value = .ok e') :
    (g.clauseEnd e stream).rest = [] ∨ (g.clauseEnd e stream).rest.Closed := by
  obtain ⟨x, rest, rfl⟩ := h.exists_cons
  have hrest := h.suffix (List.suffix_cons x rest)
  cases x with
  | error err => cases hv
  | ok l =>
    rw [clauseEnd] at hv ⊢
    repeat' split
    all_goals exact hrest

/-- A clause does not depend on what comes behind the full stop at the end of the stream, and leaves
nothing, or a stream with this full stop at its end. -/
theorem clause?_before (hg : g'.ops = g.ops) (h : stream.Closed) {r : ReadResult}
    (hr : g.clause? stream = some r) : g'.clause? (stream ++ more) = some (r.before more) ∧
      ∀ e, r.value = .ok e → r.rest = [] ∨ r.rest.Closed := by
  obtain ⟨hterm, hclosed⟩ :
      g'.term OpTable.maxPriority (stream ++ more) = (g.term OpTable.maxPriority stream).before more ∧
        ∀ e, (g.term OpTable.maxPriority stream).value = .ok e →
          (g.term OpTable.maxPriority stream).rest.Closed :=
    finish_before more hg (s := .start OpTable.maxPriority stream) h
  have hne : stream.isEmpty = false ∧ (stream ++ more).isEmpty = false := by
    obtain ⟨x, rest, rfl⟩ := h.exists_cons
    exact ⟨rfl, rfl⟩
  simp only [clause?, hne, hterm, Bool.false_eq_true, if_false] at hr ⊢
  generalize g.term OpTable.maxPriority stream = t at hr hclosed
  obtain ⟨value, rest⟩ := t
  cases value with
  | error f =>
    cases hr
    exact ⟨rfl, fun e hv => by cases hv⟩
  | ok e =>
    cases hr
    have hrest := hclosed e rfl
    exact ⟨congrArg some (clauseEnd_before more e hrest), fun e' hv => closed_clauseEnd hrest hv⟩

/-- The clauses of a stream that ends with a full stop are the first ones of a longer stream. -/
theorem clauses_append (hg : g'.ops = g.ops) (h : stream = [] ∨ stream.Closed) {es : List Expr}
    (hes : g.clauses stream = es.map .ok) :
    g'.clauses (stream ++ more) = es.map .ok ++ g'.clauses more := by
  -- behind every clause nothing is left, or a stream that ends with the same full stop
  fun_induction Grammar.clauses g stream generalizing es with
  | case1 stream hnone =>
    obtain rfl := clause?_eq_none hnone
    rw [← hes]
    rfl
  | case2 stream r hr ih =>
    have hstream : stream.Closed := by
      refine h.resolve_left ?_
      rintro rfl
      cases hr
    obtain ⟨hr', hrest⟩ := clause?_before more hg hstream hr
    cases es with
    | nil => cases hes
    | cons e es =>
      obtain ⟨hv, hes⟩ := List.cons.inj hes
      rw [clauses_of_some hr', List.map_cons, List.cons_append, ← ih (hrest e hv) hes, ← hv]
      rfl

end Grammar

end PrologTerms
