import PrologTerms.Reading.Clause
import Mathlib.Data.List.Basic

/-!
# Reading does not depend on where a text stands

What is read depends on the kinds and wordings of the lexemes, and on whether there is layout around
them, but not on where they stand. Lexemes that stand further on in a text are therefore read as the
same expressions, and with the same errors further on. Of the operators only the definitions that are
found for names are used.
-/

namespace PrologTerms

/-! ## Moving things further on -/

/-- The range `n` bytes further on. -/
def Span.shift (n : Nat) (s : Span) : Span := ⟨s.start + n, s.stop + n⟩

/-- The same error `n` bytes further on. -/
def ReadError.shift (n : Nat) (e : ReadError) : ReadError := ⟨e.fault, e.span.shift n⟩

/-- The same failure `n` bytes further on. -/
def ReadFailure.shift (n : Nat) (f : ReadFailure) : ReadFailure := ⟨f.error.shift n, f.parts⟩

/-- The same lexeme `n` bytes further on. Its line and column are forgotten. -/
def Lexeme.shift (n : Nat) (l : Lexeme) : Lexeme :=
  { l with token := { l.token with span := l.token.span.shift n, pos := {} } }

/-- The same lexemes and errors `n` bytes further on. -/
def LexemeStream.shift (n : Nat) (stream : LexemeStream) : LexemeStream :=
  stream.map fun item => (item.mapError (ReadError.shift n)).map (Lexeme.shift n)

/-- The same beginning of an operand `n` bytes further on. -/
def Operand.shift (n : Nat) : Operand → Operand
  | .complete e rest => .complete e (rest.shift n)
  | .opened f max rest => .opened f max (rest.shift n)
  | .failed e rest => .failed (e.shift n) (rest.shift n)

/-- The same place in a term `n` bytes further on. -/
def ReadState.shift (n : Nat) (s : ReadState) : ReadState := { s with stream := s.stream.shift n }

/-- What was read, or the error, `n` bytes further on. -/
def ReadResult.shift (n : Nat) (r : ReadResult) : ReadResult :=
  ⟨r.value.mapError (ReadFailure.shift n), r.rest.shift n⟩

/-- The same step `n` bytes further on. -/
def Progress.shift (n : Nat) : Progress ReadState ReadResult → Progress ReadState ReadResult
  | .more s => .more (s.shift n)
  | .done r => .done (r.shift n)

/-- The texts of the grammars end `n` bytes apart, and the same definitions are found for all names. -/
structure Grammar.Shifted (n : Nat) (g g' : Grammar) : Prop where
  /-- The same operators are found. -/
  find? : ∀ name x, g'.ops.find? name x = g.ops.find? name x
  /-- The second text ends further on. -/
  textEnd : g'.textEnd = g.textEnd + n

namespace LexemeStream

@[simp] theorem shift_nil (n : Nat) : shift n [] = [] := rfl

@[simp] theorem shift_ok (n : Nat) (l : Lexeme) (stream : LexemeStream) :
    shift n (.ok l :: stream) = .ok (l.shift n) :: shift n stream := rfl

@[simp] theorem shift_error (n : Nat) (e : ReadError) (stream : LexemeStream) :
    shift n (.error e :: stream) = .error (e.shift n) :: shift n stream := rfl

end LexemeStream

namespace Lexeme

variable (n : Nat) (l : Lexeme)

@[simp] theorem kind_shift : (l.shift n).token.kind = l.token.kind := rfl

@[simp] theorem lexeme_shift : (l.shift n).token.lexeme = l.token.lexeme := rfl

@[simp] theorem layoutBefore_shift : (l.shift n).layoutBefore = l.layoutBefore := rfl

@[simp] theorem isPunct_shift (s : String) : (l.shift n).isPunct s = l.isPunct s := rfl

@[simp] theorem operatorName?_shift : (l.shift n).operatorName? = l.operatorName? := rfl

@[simp] theorem operatorTerm_shift : (l.shift n).operatorTerm = l.operatorTerm := rfl

@[simp] theorem next?_shift (b : Bracket) (e : Expr) : b.next? e (l.shift n) = b.next? e l := by
  cases b <;> rfl

end Lexeme

namespace Grammar

variable {n : Nat} {g g' : Grammar}

namespace Shifted

theorem refl (g : Grammar) : g.Shifted 0 g := ⟨fun _ _ => rfl, rfl⟩

theorem before? (h : g.Shifted n g') (name : String) : g'.ops.before? name = g.ops.before? name :=
  h.find? name .before

theorem between? (h : g.Shifted n g') (name : String) : g'.ops.between? name = g.ops.between? name :=
  h.find? name .between

theorem behind? (h : g.Shifted n g') (name : String) : g'.ops.behind? name = g.ops.behind? name :=
  h.find? name .behind

/-- An error at the end of the text is where the text ends. -/
theorem unexpected_none (h : g.Shifted n g') (what : Expectation) :
    g'.unexpected what none = (g.unexpected what none).shift n := by
  rw [unexpected, unexpected, h.textEnd]
  rfl

/-! ## The beginning of an operand -/

theorem endsOperand (h : g.Shifted n g') (l : Lexeme) :
    g'.endsOperand (l.shift n) = g.endsOperand l := by
  simp only [Grammar.endsOperand, Lexeme.kind_shift, Lexeme.lexeme_shift, h.before?, h.between?,
    h.behind?]
  rfl

theorem operandFollows (h : g.Shifted n g') (stream : LexemeStream) :
    g'.operandFollows (stream.shift n) = g.operandFollows stream := by
  match stream with
  | [] => rfl
  | .error _ :: _ => rfl
  | .ok l :: rest => exact congrArg not (h.endsOperand l)

theorem plainName (h : g.Shifted n g') (max : Nat) (name : String) (rest : LexemeStream) :
    g'.plainName max name (rest.shift n) = (g.plainName max name rest).shift n := by
  simp only [Grammar.plainName, h.before?, h.operandFollows]
  repeat' split
  all_goals rfl

theorem ofInteger (l : Lexeme) (negative : Bool) (rest : LexemeStream) :
    Operand.ofInteger (l.shift n).token negative (rest.shift n) =
      (Operand.ofInteger l.token negative rest).shift n := by
  have hint : (l.shift n).token.integer negative = l.token.integer negative := rfl
  unfold Operand.ofInteger
  rw [hint]
  split <;> rfl

theorem ofBracket (close : String) (empty : Expr) (f : Frame) (max : Nat) (stream : LexemeStream) :
    Operand.ofBracket close empty f max (stream.shift n) =
      (Operand.ofBracket close empty f max stream).shift n := by
  match stream with
  | [] => rfl
  | .error _ :: _ => rfl
  | .ok l :: rest =>
    have hl : (l.shift n).isPunct close = l.isPunct close := rfl
    rw [LexemeStream.shift_ok, Operand.ofBracket, Operand.ofBracket]
    by_cases hc : l.isPunct close = true
    · rw [if_pos hc, if_pos (hl.trans hc)]
      rfl
    · rw [if_neg hc, if_neg (hl ▸ hc)]
      rfl

theorem name (h : g.Shifted n g') (max : Nat) (name : String) (stream : LexemeStream) :
    g'.name max name (stream.shift n) = (g.name max name stream).shift n := by
  match stream with
  | [] => exact h.plainName max name []
  | .error _ :: _ => rfl
  | .ok l :: rest =>
    have hplain := h.plainName max name (.ok l :: rest)
    rw [LexemeStream.shift_ok] at hplain ⊢
    simp only [Grammar.name, Lexeme.layoutBefore_shift, Lexeme.isPunct_shift, Lexeme.kind_shift,
      hplain, ofInteger]
    repeat' split
    all_goals rfl

theorem operand (h : g.Shifted n g') (max : Nat) (stream : LexemeStream) :
    g'.operand max (stream.shift n) = (g.operand max stream).shift n := by
  match stream with
  | [] =>
    simp only [LexemeStream.shift_nil, Grammar.operand, Operand.shift, h.textEnd]
    rfl
  | .error _ :: _ => rfl
  | .ok l :: rest =>
    simp only [LexemeStream.shift_ok, Grammar.operand, Lexeme.kind_shift, Lexeme.lexeme_shift,
      Lexeme.isPunct_shift, h.name, ofInteger, ofBracket]
    repeat' split
    all_goals rfl

/-! ## Steps -/

theorem operator? (h : g.Shifted n g') (priority max : Nat) (l : Lexeme) :
    g'.operator? priority max (l.shift n) = g.operator? priority max l := by
  simp only [Grammar.operator?, Lexeme.operatorName?_shift, h.between?, h.behind?]

theorem stepBracket (h : g.Shifted n g') (b : Bracket) (max : Nat) (frames : List Frame) (e : Expr)
    (stream : LexemeStream) : g'.stepBracket b max frames e (stream.shift n) =
      (g.stepBracket b max frames e stream).shift n := by
  match stream with
  | [] =>
    rw [LexemeStream.shift_nil, Grammar.stepBracket, h.unexpected_none]
    rfl
  | .error _ :: _ => rfl
  | .ok l :: rest =>
    simp only [LexemeStream.shift_ok, Grammar.stepBracket, Lexeme.next?_shift]
    split <;> rfl

theorem stepComplete (h : g.Shifted n g') (e : Expr) (stream : LexemeStream) (frames : List Frame) :
    g'.stepComplete e (stream.shift n) frames = (g.stepComplete e stream frames).shift n := by
  match frames with
  | [] => rfl
  | .rightOperand _ _ _ _ :: _ => rfl
  | .onlyOperand _ _ _ :: _ => rfl
  | .contents b max :: frames => exact h.stepBracket b max frames e stream

theorem stepBehind (h : g.Shifted n g') (frames : List Frame) (e : Expr) (priority max : Nat)
    (stream : LexemeStream) : g'.stepBehind frames e priority max (stream.shift n) =
      (g.stepBehind frames e priority max stream).shift n := by
  match stream with
  | [] => exact h.stepComplete e [] frames
  | .error _ :: _ => rfl
  | .ok l :: rest =>
    have hcomplete := h.stepComplete e (.ok l :: rest) frames
    rw [LexemeStream.shift_ok] at hcomplete ⊢
    simp only [Grammar.stepBehind, h.operator?, Lexeme.operatorTerm_shift, hcomplete]
    repeat' split
    all_goals rfl

theorem step (h : g.Shifted n g') (s : ReadState) : g'.step (s.shift n) = (g.step s).shift n := by
  obtain ⟨frames, focus, stream⟩ := s
  cases focus with
  | behind e priority max => exact h.stepBehind frames e priority max stream
  | operand max =>
    simp only [Grammar.step, ReadState.shift, h.operand]
    cases g.operand max stream <;> rfl

/-! ## Terms and clauses -/

theorem finish (h : g.Shifted n g') (s : ReadState) : g'.finish (s.shift n) = (g.finish s).shift n := by
  fun_induction Grammar.finish g s with
  | case1 s s' hstep ih =>
    have hstep' : g'.step (s.shift n) = .more (s'.shift n) := by
      rw [h.step, hstep]
      rfl
    exact (finish_of_more hstep').trans ih
  | case2 s r hstep =>
    have hstep' : g'.step (s.shift n) = .done (r.shift n) := by
      rw [h.step, hstep]
      rfl
    exact finish_of_done hstep'

theorem clauseEnd (e : Expr) (stream : LexemeStream) :
    g'.clauseEnd e (stream.shift n) = (g.clauseEnd e stream).shift n := by
  match stream with
  | [] => rfl
  | .error _ :: _ => rfl
  | .ok l :: rest =>
    have hkind : (l.shift n).token.kind = l.token.kind := rfl
    have hbehind : (l.shift n).layoutBehind = l.layoutBehind := rfl
    rw [LexemeStream.shift_ok, Grammar.clauseEnd, Grammar.clauseEnd]
    by_cases hk : l.token.kind = .stop
    · rw [if_pos hk, if_pos (hkind.trans hk)]
      by_cases hb : l.layoutBehind = true
      · rw [if_pos hb, if_pos (hbehind.trans hb)]
        rfl
      · rw [if_neg hb, if_neg (hbehind ▸ hb)]
        rfl
    · rw [if_neg hk, if_neg (hkind ▸ hk)]
      rfl

/-- A clause further on in a text is read as the same expression, or with the same error. -/
theorem clause? (h : g.Shifted n g') (stream : LexemeStream) :
    g'.clause? (stream.shift n) = (g.clause? stream).map (ReadResult.shift n) := by
  have hterm : g'.term OpTable.maxPriority (stream.shift n) =
      (g.term OpTable.maxPriority stream).shift n := h.finish (.start OpTable.maxPriority stream)
  have hempty : (stream.shift n).isEmpty = stream.isEmpty := by
    cases stream <;> rfl
  unfold Grammar.clause?
  rw [hempty, hterm]
  generalize g.term OpTable.maxPriority stream = r
  obtain ⟨value, rest⟩ := r
  by_cases hs : stream.isEmpty = true
  · rw [if_pos hs, if_pos hs]
    rfl
  · rw [if_neg hs, if_neg hs]
    cases value with
    | error f => rfl
    | ok e => exact congrArg some (clauseEnd e rest)

/-- So are all clauses. -/
theorem clauses (h : g.Shifted n g') (stream : LexemeStream) :
    g'.clauses (stream.shift n) = (g.clauses stream).map (Except.mapError (ReadFailure.shift n)) := by
  have hclause := h.clause? stream
  fun_induction Grammar.clauses g stream with
  | case1 stream hnone =>
    rw [hnone] at hclause
    exact clauses_of_none hclause
  | case2 stream r hsome ih =>
    rw [hsome] at hclause
    rw [clauses_of_some hclause, List.map_cons, ← ih (h.clause? r.rest)]
    rfl

/-! ## Streams that differ only in their places -/

theorem mapError_shift_zero (v : Except ReadFailure Expr) : v.mapError (ReadFailure.shift 0) = v := by
  cases v <;> rfl

/-- If the second stream stands further on, what it is read as does so too. -/
theorem value_clause? (h : g.Shifted n g') {stream stream' : LexemeStream}
    (hs : stream'.shift 0 = stream.shift n) : (g'.clause? stream').map ReadResult.value =
      (g.clause? stream).map fun r => r.value.mapError (ReadFailure.shift n) := by
  -- a stream moved by nothing has only lost its lines and columns, and is read as it was
  have hclause := (refl g').clause? stream'
  rw [hs, h.clause? stream] at hclause
  have hvalue := congrArg (Option.map ReadResult.value) hclause
  rw [Option.map_map, Option.map_map] at hvalue
  calc (g'.clause? stream').map ReadResult.value
    _ = (g'.clause? stream').map (ReadResult.value ∘ ReadResult.shift 0) :=
        Option.map_congr fun r _ => (mapError_shift_zero r.value).symm
    _ = (g.clause? stream).map (ReadResult.value ∘ ReadResult.shift n) := hvalue.symm

theorem clauses_of_shift (h : g.Shifted n g') {stream stream' : LexemeStream}
    (hs : stream'.shift 0 = stream.shift n) :
    g'.clauses stream' = (g.clauses stream).map (Except.mapError (ReadFailure.shift n)) := by
  have hclauses := (refl g').clauses stream'
  rw [hs, h.clauses stream, List.map_congr_left fun v _ => mapError_shift_zero v, List.map_id'] at hclauses
  exact hclauses.symm

end Shifted

end Grammar

end PrologTerms
