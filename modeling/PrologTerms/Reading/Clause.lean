import PrologTerms.Reading.Term

/-!
# Reading clauses

A text is a sequence of clauses, each of them a term with a full stop behind it, which may be left
out at the end of the text. Behind an error the reading can go on with whatever is left.
-/

namespace PrologTerms

namespace Grammar

/-- Reads the end of a clause behind its term. -/
def clauseEnd (g : Grammar) (e : Expr) : LexemeStream → ReadResult
  | [] => .ok e []
  | .error err :: rest => .fail [] [e] err rest
  | .ok l :: rest =>
    if l.token.kind = .stop then
      if l.layoutBehind then .ok e rest
      else .fail [] [e] ⟨.stopWithoutLayout, l.token.span⟩ rest
    else .fail [] [e] (g.unexpected .operator (some l)) rest

/-- Reads a clause, unless nothing is left to be read. -/
def clause? (g : Grammar) (stream : LexemeStream) : Option ReadResult :=
  if stream.isEmpty then none
  else
    let r := g.term OpTable.maxPriority stream
    match r.value with
    | .error f => some ⟨.error f, r.rest⟩
    | .ok e => some (g.clauseEnd e r.rest)

theorem length_rest_clauseEnd_le (g : Grammar) (e : Expr) (stream : LexemeStream) :
    (g.clauseEnd e stream).rest.length ≤ stream.length := by
  unfold clauseEnd
  repeat' split
  all_goals simp

/-- Reading a clause takes at least one lexeme. -/
theorem length_rest_lt_of_clause? {g : Grammar} {stream : LexemeStream} {r : ReadResult}
    (h : g.clause? stream = some r) : r.rest.length < stream.length := by
  unfold clause? at h
  split at h
  · simp at h
  · next hs =>
    have taken := g.length_rest_term_lt OpTable.maxPriority (s := stream) (by simpa using hs)
    have end_le := fun e => g.length_rest_clauseEnd_le e (g.term OpTable.maxPriority stream).rest
    dsimp only at h
    split at h
    all_goals
      simp only [Option.some.injEq] at h
      subst h
    · exact taken
    · exact Nat.lt_of_le_of_lt (end_le _) taken

/-- There is always a clause to be read, or an error, unless nothing is left. -/
theorem clause?_eq_none {g : Grammar} {stream : LexemeStream} (h : g.clause? stream = none) :
    stream = [] := by
  unfold clause? at h
  split at h
  · next hs => exact List.isEmpty_iff.1 hs
  · dsimp only at h
    split at h <;> cases h

/-- Reads all clauses. Behind an error the reading goes on with what is left. -/
def clauses (g : Grammar) (stream : LexemeStream) : List (Except ReadFailure Expr) :=
  match _h : g.clause? stream with
  | none => []
  | some r => r.value :: g.clauses r.rest
termination_by stream.length
decreasing_by exact length_rest_lt_of_clause? _h

theorem clauses_of_none {g : Grammar} {stream : LexemeStream} (h : g.clause? stream = none) :
    g.clauses stream = [] := by
  rw [clauses]
  split <;> simp_all

theorem clauses_of_some {g : Grammar} {stream : LexemeStream} {r : ReadResult}
    (h : g.clause? stream = some r) : g.clauses stream = r.value :: g.clauses r.rest := by
  rw [clauses]
  split <;> simp_all

/-- The error of looking for a clause in a text without one. -/
def noClause (g : Grammar) : ReadError := ⟨.unexpectedEnd, .point g.textEnd⟩

end Grammar

/-- What decides how the lexemes of a text are put together. -/
def OpTable.grammar (ops : OpTable) (text : String) : Grammar := ⟨ops, utf8Length text.toList⟩

end PrologTerms
