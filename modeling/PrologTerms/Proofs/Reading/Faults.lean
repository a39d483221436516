import PrologTerms.Proofs.Reading.Reader
import PrologTerms.Proofs.Reading.Step

/-!
# What errors are about

An error of reading is about one of the lexemes or malformed tokens that are read, with the bytes of just
this one, or about the end of the text. Reading only ever goes on in what is left, so that this holds of
all errors of a text, wherever in it a clause begins.
-/

namespace PrologTerms

/-- What can be wrong about a lexeme. -/
inductive Lexeme.Fault (l : Lexeme) : ReadFault → Prop
  /-- Something else was expected. -/
  | unexpected (what : Expectation) : Lexeme.Fault l (.expected what (some l.token.lexeme))
  /-- There is no layout behind a full stop. -/
  | stop (hk : l.token.kind = .stop) : Lexeme.Fault l .stopWithoutLayout
  /-- It is a float. -/
  | float (hk : l.token.kind = .float) : Lexeme.Fault l .float
  /-- It is an integer without a value, or with one that does not fit. -/
  | integer {negative : Bool} {f : ReadFault} (hk : l.token.kind = .natural)
    (h : l.token.integer negative = .error f) : Lexeme.Fault l f

namespace Grammar

/-- The error is about something in the stream, or about the end of the text. -/
inductive Concerns (g : Grammar) (stream : LexemeStream) : ReadError → Prop
  /-- A malformed token. -/
  | token {e : ReadError} (h : .error e ∈ stream) : Concerns g stream e
  /-- A lexeme. -/
  | lexeme {l : Lexeme} {f : ReadFault} (hl : .ok l ∈ stream) (hf : l.Fault f) :
    Concerns g stream ⟨f, l.token.span⟩
  /-- The text ends where a term should begin. -/
  | unexpectedEnd : Concerns g stream ⟨.unexpectedEnd, .point g.textEnd⟩
  /-- The text ends where a term should go on. -/
  | missing (what : Expectation) : Concerns g stream ⟨.expected what none, .point g.textEnd⟩

variable {g : Grammar} {stream rest : LexemeStream} {e : ReadError} {x : Except ReadError Lexeme}

theorem Concerns.mono (h : g.Concerns rest e) (hs : rest <:+ stream) : g.Concerns stream e := by
  cases h with
  | token h => exact .token (hs.mem h)
  | lexeme hl hf => exact .lexeme (hs.mem hl) hf
  | unexpectedEnd => exact .unexpectedEnd
  | missing what => exact .missing what

theorem concerns_head (h : x = .error e) : g.Concerns (x :: rest) e :=
  .token (h ▸ List.mem_cons_self)

theorem concerns_unexpected (what : Expectation) (l : Lexeme) (rest : LexemeStream) :
    g.Concerns (.ok l :: rest) (g.unexpected what (some l)) :=
  .lexeme List.mem_cons_self (.unexpected what)

end Grammar

/-! ## One step -/

/-- What is left is a rest of the stream, and an error is about something in it. -/
structure ReadResult.From (g : Grammar) (stream : LexemeStream) (r : ReadResult) : Prop where
  /-- What is left. -/
  rest : r.rest <:+ stream
  /-- The error, if there is one. -/
  error : ∀ f, r.value = .error f → g.Concerns stream f.error

theorem ReadResult.From.mono {g : Grammar} {stream stream' : LexemeStream} {r : ReadResult}
    (h : r.From g stream') (hs : stream' <:+ stream) : r.From g stream :=
  ⟨h.rest.trans hs, fun f hf => (h.error f hf).mono hs⟩

theorem ReadResult.from_ok {g : Grammar} {stream rest : LexemeStream} (e : Expr)
    (h : rest <:+ stream) : (ReadResult.ok e rest).From g stream :=
  ⟨h, fun _ hf => by cases hf⟩

theorem ReadResult.from_fail {g : Grammar} {stream rest : LexemeStream} {e : ReadError}
    (frames : List Frame) (es : List Expr) (h : rest <:+ stream) (he : g.Concerns stream e) :
    (ReadResult.fail frames es e rest).From g stream :=
  ⟨h, fun f hf => by cases hf; exact he⟩

/-- The same of the beginning of an operand. -/
def Operand.From (g : Grammar) (stream : LexemeStream) : Operand → Prop
  | .complete _ rest => rest <:+ stream
  | .opened _ _ rest => rest <:+ stream
  | .failed e rest => rest <:+ stream ∧ g.Concerns stream e

/-- The same of what a step leads to. -/
def Progress.From (g : Grammar) (stream : LexemeStream) : Progress ReadState ReadResult → Prop
  | .more s => s.stream <:+ stream
  | .done r => r.From g stream

section

variable {g : Grammar} {stream stream' rest : LexemeStream} {l : Lexeme}

theorem Operand.From.mono {o : Operand} (h : o.From g stream') (hs : stream' <:+ stream) :
    o.From g stream := by
  cases o with
  | complete => exact List.IsSuffix.trans h hs
  | opened => exact List.IsSuffix.trans h hs
  | failed => exact ⟨h.1.trans hs, h.2.mono hs⟩

theorem Operand.from_ofInteger (hk : l.token.kind = .natural) (negative : Bool)
    (rest : LexemeStream) : (Operand.ofInteger l.token negative rest).From g (.ok l :: rest) := by
  unfold Operand.ofInteger
  split
  · exact List.suffix_cons _ _
  · next f hf => exact ⟨List.suffix_cons _ _, .lexeme List.mem_cons_self (.integer hk hf)⟩

theorem Operand.from_ofBracket (close : String) (empty : Expr) (f : Frame) (max : Nat)
    (rest : LexemeStream) : (Operand.ofBracket close empty f max rest).From g rest := by
  unfold Operand.ofBracket
  split
  · exact List.suffix_rfl
  · exact ⟨List.suffix_cons _ _, Grammar.concerns_head rfl⟩
  · split
    · exact List.suffix_cons _ _
    · exact List.suffix_rfl

namespace Grammar

theorem from_plainName (g : Grammar) (max : Nat) (name : String) (rest : LexemeStream) :
    (g.plainName max name rest).From g rest := by
  unfold plainName
  repeat' split
  all_goals exact List.suffix_rfl

theorem from_name (g : Grammar) (max : Nat) (name : String) (rest : LexemeStream) :
    (g.name max name rest).From g rest := by
  unfold Grammar.name
  split
  · exact g.from_plainName _ _ _
  · exact ⟨List.suffix_cons _ _, concerns_head rfl⟩
  · next l rest =>
    split
    · exact g.from_plainName _ _ _
    · split
      · exact List.suffix_cons _ _
      · split
        · next hk => exact Operand.from_ofInteger hk.2 _ _
        · split
          · next hk => exact ⟨List.suffix_cons _ _, .lexeme List.mem_cons_self (.float hk.2)⟩
          · exact g.from_plainName _ _ _

/-- The beginning of an operand leaves a rest, or an error about what it begins with. -/
theorem from_operand (g : Grammar) (max : Nat) (stream : LexemeStream) :
    (g.operand max stream).From g stream := by
  unfold operand
  split
  · exact ⟨List.suffix_rfl, .unexpectedEnd⟩
  · exact ⟨List.suffix_cons _ _, concerns_head rfl⟩
  · next l rest =>
    have hrest : rest <:+ Except.ok l :: rest := List.suffix_cons _ _
    have hterm : (Operand.failed (g.unexpected .term (some l)) rest).From g (.ok l :: rest) :=
      ⟨hrest, concerns_unexpected _ _ _⟩
    split
    · next hk => exact Operand.from_ofInteger hk _ _
    · next hk => exact ⟨hrest, .lexeme List.mem_cons_self (.float hk)⟩
    · exact hrest
    · exact hrest
    · exact (g.from_name _ _ _).mono hrest
    · split
      · exact hrest
      · split
        · exact (Operand.from_ofBracket _ _ _ _ _).mono hrest
        · split
          · exact (Operand.from_ofBracket _ _ _ _ _).mono hrest
          · exact hterm
    · exact hterm
    · exact hterm

theorem from_stepBracket (g : Grammar) (b : Bracket) (max : Nat) (frames : List Frame) (e : Expr)
    (stream : LexemeStream) : (g.stepBracket b max frames e stream).From g stream := by
  unfold stepBracket
  split
  · exact ReadResult.from_fail _ _ List.suffix_rfl (.missing _)
  · exact ReadResult.from_fail _ _ (List.suffix_cons _ _) (concerns_head rfl)
  · split
    · exact List.suffix_cons _ _
    · exact List.suffix_cons _ _
    · exact ReadResult.from_fail _ _ (List.suffix_cons _ _) (concerns_unexpected _ _ _)

theorem from_stepComplete (g : Grammar) (e : Expr) (stream : LexemeStream) (frames : List Frame) :
    (g.stepComplete e stream frames).From g stream := by
  unfold stepComplete
  split
  · exact ReadResult.from_ok _ List.suffix_rfl
  · exact List.suffix_rfl
  · exact List.suffix_rfl
  · exact g.from_stepBracket _ _ _ _ _

theorem from_stepBehind (g : Grammar) (frames : List Frame) (e : Expr) (priority max : Nat)
    (stream : LexemeStream) : (g.stepBehind frames e priority max stream).From g stream := by
  unfold stepBehind
  split
  · exact g.from_stepComplete _ _ _
  · exact ReadResult.from_fail _ _ (List.suffix_cons _ _) (concerns_head rfl)
  · split
    · exact g.from_stepComplete _ _ _
    · split
      · exact List.suffix_cons _ _
      · exact List.suffix_cons _ _

/-- A step goes on with a rest of the stream, or ends with one, or with an error about something in
it. -/
theorem from_step (g : Grammar) (s : ReadState) : (g.step s).From g s.stream := by
  unfold step
  split
  · exact g.from_stepBehind _ _ _ _ _
  · next max _ =>
    have ho := g.from_operand max s.stream
    split
    · next h => rwa [h] at ho
    · next h => rwa [h] at ho
    · next h =>
      rw [h] at ho
      exact ReadResult.from_fail _ _ ho.1 ho.2

/-! ## Clauses -/

theorem Goes.suffix {s s' : ReadState} (h : g.Goes s s') : s'.stream <:+ s.stream := by
  induction h with
  | refl => exact List.suffix_rfl
  | @tail s₁ s₂ _ h ih =>
    have hstep := g.from_step s₁
    rw [h] at hstep
    exact List.IsSuffix.trans hstep ih

theorem from_finish (g : Grammar) (s : ReadState) : (g.finish s).From g s.stream := by
  fun_induction finish g s with
  | case1 s s' h ih =>
    have hstep := g.from_step s
    rw [h] at hstep
    exact ih.mono hstep
  | case2 s r h =>
    have hstep := g.from_step s
    rwa [h] at hstep

theorem from_clauseEnd (g : Grammar) (e : Expr) (stream : LexemeStream) :
    (g.clauseEnd e stream).From g stream := by
  unfold clauseEnd
  split
  · exact ReadResult.from_ok _ List.suffix_rfl
  · exact ReadResult.from_fail _ _ (List.suffix_cons _ _) (concerns_head rfl)
  · split
    · next hk =>
      split
      · exact ReadResult.from_ok _ (List.suffix_cons _ _)
      · exact ReadResult.from_fail _ _ (List.suffix_cons _ _) (.lexeme List.mem_cons_self (.stop hk))
    · exact ReadResult.from_fail _ _ (List.suffix_cons _ _) (concerns_unexpected _ _ _)

/-- A clause leaves a rest of the stream, and an error in its place is about something in it. -/
theorem from_clause? {r : ReadResult} (h : g.clause? stream = some r) : r.From g stream := by
  unfold clause? at h
  split at h
  · cases h
  · have hterm : (g.term OpTable.maxPriority stream).From g stream :=
      g.from_finish (.start OpTable.maxPriority stream)
    dsimp only at h
    split at h
    · next f hv =>
      cases h
      exact ⟨hterm.rest, fun f' hf' => hterm.error f' (hv.trans hf')⟩
    · cases h
      exact (g.from_clauseEnd _ _).mono hterm.rest

/-- Errors in the place of clauses are about what is read. -/
theorem concerns_of_mem_clauses {f : ReadFailure} (h : .error f ∈ g.clauses stream) :
    g.Concerns stream f.error := by
  fun_induction clauses g stream with
  | case1 => cases h
  | case2 stream r hr ih =>
    have hfrom := from_clause? hr
    rcases List.mem_cons.1 h with h | h
    · exact hfrom.error f h.symm
    · exact (ih h).mono hfrom.rest

end Grammar

namespace Reader

variable {r : Reader} {n : Nat} {e : ReadError}

theorem suffix_read (g : Grammar) (r : Reader) : (r.read g).2.stream <:+ r.stream := by
  cases h : g.clause? r.stream with
  | none =>
    rw [read_of_none h]
  | some result =>
    rw [read_of_some h]
    exact (Grammar.from_clause? h).rest

theorem suffix_after (g : Grammar) (n : Nat) (r : Reader) : (r.after g n).stream <:+ r.stream := by
  induction n with
  | zero => exact List.suffix_rfl
  | succ n ih =>
    rw [after_succ]
    exact (suffix_read g _).trans ih

/-- An error that a reader gives is about what it has left. -/
theorem concerns_of_read (h : (r.read g).1 = some (.error e)) : g.Concerns r.stream e := by
  cases hc : g.clause? r.stream with
  | none =>
    rw [read_of_none hc] at h
    cases h
  | some result =>
    rw [read_of_some hc] at h
    cases hv : result.value with
    | ok _ =>
      rw [hv] at h
      cases h
    | error f =>
      rw [hv] at h
      cases h
      exact (Grammar.from_clause? hc).error f hv

end Reader

end

end PrologTerms
