import PrologTerms.Iteration
import PrologTerms.Reading.Operand

/-!
# Reading a term

A term is read from left to right without ever going back. Either an operand is read next, or an
operand is complete, and what follows decides what becomes of it: an operator that fits takes it as
its left operand; otherwise it completes the innermost term that is begun.
-/

namespace PrologTerms

/-- What is read next. -/
inductive Focus
  /-- An operand of at most this priority. -/
  | operand (max : Nat)
  /-- What is behind a complete operand of this priority, which stands where terms have at most the
  priority `max`. -/
  | behind (e : Expr) (priority max : Nat)
deriving Repr

/-- A place in a term that is being read. -/
structure ReadState where
  /-- The terms that are begun, the innermost first. -/
  frames : List Frame
  /-- What is read next. -/
  focus : Focus
  /-- What is left to be read. -/
  stream : LexemeStream
deriving Repr

/-- An error, and what was complete when it was met. -/
structure ReadFailure where
  /-- The error. -/
  error : ReadError
  /-- The complete parts of the term, in the order of the text. -/
  parts : List Fragment
deriving Repr

/-- How the reading of a term ends. -/
structure ReadResult where
  /-- The term, or why there is none. -/
  value : Except ReadFailure Expr
  /-- What is left to be read. -/
  rest : LexemeStream

namespace ReadResult

/-- A term that was read. -/
def ok (e : Expr) (rest : LexemeStream) : ReadResult := ⟨.ok e, rest⟩

/-- An error behind the given terms in the given frames. -/
def fail (frames : List Frame) (es : List Expr) (err : ReadError) (rest : LexemeStream) :
    ReadResult :=
  ⟨.error ⟨err, fragmentsAround frames ++ es.map .expr⟩, rest⟩

@[simp] theorem rest_ok (e : Expr) (rest : LexemeStream) : (ok e rest).rest = rest := rfl

@[simp] theorem rest_fail (frames : List Frame) (es : List Expr) (err : ReadError)
    (rest : LexemeStream) : (fail frames es err rest).rest = rest := rfl

end ReadResult

/-! ## Operators behind an operand -/

/-- Does an operator fit where terms have at most the priority `max`, behind a left operand of this
priority? -/
def OpDef.fits (d : OpDef) (priority max : Nat) : Bool :=
  d.priority ≤ max && priority ≤ d.leftMax

/-- The operator that a lexeme is behind an operand, if it is one that fits. One that stands between
operands goes before one that stands behind. -/
def Grammar.operator? (g : Grammar) (priority max : Nat) (l : Lexeme) : Option OpDef :=
  match l.operatorName? with
  | none => none
  | some name =>
    ((g.ops.between? name).filter (·.fits priority max)).or
      ((g.ops.behind? name).filter (·.fits priority max))

/-- The name of the term that a lexeme makes as an operator: the bar makes a disjunction. -/
def Lexeme.operatorTerm (l : Lexeme) : String := if l.isPunct "|" then ";" else l.token.lexeme

/-! ## Steps -/

namespace ReadState

/-- The beginning of a term of at most the given priority. -/
def start (max : Nat) (stream : LexemeStream) : ReadState := ⟨[], .operand max, stream⟩

/-- A bound for the number of steps to come. -/
def size (s : ReadState) : Nat := 2 * s.stream.length + s.frames.length

end ReadState

namespace Grammar

/-- Goes on behind a term in brackets, or stops at a lexeme that the bracket does not wait for. -/
def stepBracket (g : Grammar) (b : Bracket) (max : Nat) (frames : List Frame) (e : Expr) :
    LexemeStream → Progress ReadState ReadResult
  | [] => .done (.fail (.contents b max :: frames) [e] (g.unexpected b.expected none) [])
  | .error err :: rest => .done (.fail (.contents b max :: frames) [e] err rest)
  | .ok l :: rest =>
    match b.next? e l with
    | some (.closed e') => .more ⟨frames, .behind e' 0 max, rest⟩
    | some (.again b') => .more ⟨.contents b' max :: frames, .operand argumentMax, rest⟩
    | none =>
      .done (.fail (.contents b max :: frames) [e] (g.unexpected b.expected (some l)) rest)

/-- Completes the innermost term that is begun with an operand that no operator follows. -/
def stepComplete (g : Grammar) (e : Expr) (stream : LexemeStream) :
    List Frame → Progress ReadState ReadResult
  | [] => .done (.ok e stream)
  | .rightOperand left name priority max :: frames =>
    .more ⟨frames, .behind (.compound [left] name [e]) priority max, stream⟩
  | .onlyOperand name priority max :: frames =>
    .more ⟨frames, .behind (.compound [] name [e]) priority max, stream⟩
  | .contents b max :: frames => g.stepBracket b max frames e stream

/-- Goes on behind a complete operand. -/
def stepBehind (g : Grammar) (frames : List Frame) (e : Expr) (priority max : Nat) :
    LexemeStream → Progress ReadState ReadResult
  | [] => g.stepComplete e [] frames
  | .error err :: rest => .done (.fail frames [e] err rest)
  | .ok l :: rest =>
    match g.operator? priority max l with
    | none => g.stepComplete e (.ok l :: rest) frames
    | some d =>
      if d.stands .between then
        .more ⟨.rightOperand e l.operatorTerm d.priority max :: frames, .operand d.rightMax, rest⟩
      else .more ⟨frames, .behind (.compound [e] l.operatorTerm []) d.priority max, rest⟩

/-- One step of reading a term. -/
def step (g : Grammar) (s : ReadState) : Progress ReadState ReadResult :=
  match s.focus with
  | .behind e priority max => g.stepBehind s.frames e priority max s.stream
  | .operand max =>
    match g.operand max s.stream with
    | .complete e rest => .more ⟨s.frames, .behind e 0 max, rest⟩
    | .opened f inner rest => .more ⟨f :: s.frames, .operand inner, rest⟩
    | .failed err rest => .done (.fail s.frames [] err rest)

end Grammar

/-! ## The steps come to an end -/

/-- What is left to be read after a step. -/
def Progress.left : Progress ReadState ReadResult → LexemeStream
  | .more s => s.stream
  | .done r => r.rest

namespace Grammar

theorem length_left_stepBracket_le (g : Grammar) (b : Bracket) (max : Nat) (frames : List Frame)
    (e : Expr) (stream : LexemeStream) :
    (g.stepBracket b max frames e stream).left.length ≤ stream.length := by
  unfold stepBracket
  repeat' split
  all_goals simp [Progress.left]

theorem length_left_stepComplete_le (g : Grammar) (e : Expr) (stream : LexemeStream)
    (frames : List Frame) : (g.stepComplete e stream frames).left.length ≤ stream.length := by
  unfold stepComplete
  split
  · exact Nat.le_refl _
  · exact Nat.le_refl _
  · exact Nat.le_refl _
  · exact g.length_left_stepBracket_le _ _ _ _ _

theorem length_left_stepBehind_le (g : Grammar) (frames : List Frame) (e : Expr)
    (priority max : Nat) (stream : LexemeStream) :
    (g.stepBehind frames e priority max stream).left.length ≤ stream.length := by
  unfold stepBehind
  repeat' split
  · exact g.length_left_stepComplete_le _ _ _
  · simp [Progress.left]
  · exact g.length_left_stepComplete_le _ _ _
  · simp [Progress.left]
  · simp [Progress.left]

/-- Where an operand begins, a step takes at least one lexeme. -/
theorem length_left_step_lt (g : Grammar) {s : ReadState} {max : Nat} (hf : s.focus = .operand max)
    (hs : s.stream ≠ []) : (g.step s).left.length < s.stream.length := by
  have taken := g.length_rest_operand_lt max hs
  unfold step
  split
  · simp_all
  · next max' h =>
    obtain rfl : max' = max := by simp_all
    split
    all_goals simp_all [Progress.left]

/-- No step gives a lexeme back. -/
theorem length_left_step_le (g : Grammar) (s : ReadState) :
    (g.step s).left.length ≤ s.stream.length := by
  by_cases hs : s.stream = []
  · unfold step
    split
    · exact g.length_left_stepBehind_le _ _ _ _ _
    · simp [hs, operand, Progress.left]
  · cases hf : s.focus with
    | operand max => exact Nat.le_of_lt (g.length_left_step_lt hf hs)
    | behind e priority max =>
      unfold step
      simp only [hf]
      exact g.length_left_stepBehind_le _ _ _ _ _

theorem size_stepBracket_lt {g : Grammar} {b : Bracket} {max : Nat} {frames : List Frame}
    {e : Expr} {stream : LexemeStream} {s : ReadState}
    (h : g.stepBracket b max frames e stream = .more s) :
    s.size < 2 * stream.length + frames.length + 1 := by
  unfold stepBracket at h
  repeat' split at h
  all_goals simp only [Progress.more.injEq, reduceCtorEq] at h
  all_goals
    subst h
    simp only [ReadState.size, List.length_cons]
    omega

theorem size_stepComplete_lt {g : Grammar} {e : Expr} {stream : LexemeStream}
    {frames : List Frame} {s : ReadState} (h : g.stepComplete e stream frames = .more s) :
    s.size < 2 * stream.length + frames.length := by
  unfold stepComplete at h
  split at h
  · simp at h
  · simp only [Progress.more.injEq] at h
    subst h
    simp [ReadState.size]
  · simp only [Progress.more.injEq] at h
    subst h
    simp [ReadState.size]
  · simpa [Nat.add_assoc] using size_stepBracket_lt h

theorem size_stepBehind_lt {g : Grammar} {frames : List Frame} {e : Expr} {priority max : Nat}
    {stream : LexemeStream} {s : ReadState}
    (h : g.stepBehind frames e priority max stream = .more s) :
    s.size < 2 * stream.length + frames.length := by
  unfold stepBehind at h
  repeat' split at h
  · exact size_stepComplete_lt h
  · simp at h
  · exact size_stepComplete_lt h
  all_goals
    simp only [Progress.more.injEq] at h
    subst h
    simp only [ReadState.size, List.length_cons]
    omega

/-- Every step uses up a lexeme or completes a term. -/
theorem size_step_lt {g : Grammar} {s s' : ReadState} (h : g.step s = .more s') :
    s'.size < s.size := by
  unfold step at h
  split at h
  · exact size_stepBehind_lt h
  · next max _ =>
    by_cases hs : s.stream = []
    · simp [hs, operand] at h
    · have taken := g.length_rest_operand_lt max hs
      split at h
      all_goals simp only [Progress.more.injEq, reduceCtorEq] at h
      all_goals
        subst h
        simp_all only [ReadState.size, List.length_cons, Operand.rest_complete,
          Operand.rest_opened]
        omega

/-! ## Reading -/

/-- Reads on to the end of the term, or to an error. -/
def finish (g : Grammar) (s : ReadState) : ReadResult :=
  match _h : g.step s with
  | .more s' => g.finish s'
  | .done r => r
termination_by s.size
decreasing_by exact size_step_lt _h

theorem finish_of_more {g : Grammar} {s s' : ReadState} (h : g.step s = .more s') :
    g.finish s = g.finish s' := by
  rw [finish]
  split <;> simp_all

theorem finish_of_done {g : Grammar} {s : ReadState} {r : ReadResult} (h : g.step s = .done r) :
    g.finish s = r := by
  rw [finish]
  split <;> simp_all

/-- Reads a term of at most the given priority. -/
def term (g : Grammar) (max : Nat) (stream : LexemeStream) : ReadResult :=
  g.finish (.start max stream)

theorem length_rest_finish_le (g : Grammar) (s : ReadState) :
    (g.finish s).rest.length ≤ (g.step s).left.length := by
  fun_induction finish g s with
  | case1 s s' h ih => simpa [h, Progress.left] using Nat.le_trans ih (g.length_left_step_le s')
  | case2 s r h => simp [h, Progress.left]

/-- Reading a term takes at least one lexeme. -/
theorem length_rest_term_lt (g : Grammar) (max : Nat) {s : LexemeStream} (h : s ≠ []) :
    (g.term max s).rest.length < s.length :=
  Nat.lt_of_le_of_lt (g.length_rest_finish_le _)
    (length_left_step_lt g (s := .start max s) rfl h)

end Grammar

end PrologTerms
