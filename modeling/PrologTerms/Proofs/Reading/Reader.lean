import PrologTerms.Proofs.Iteration
import PrologTerms.Proofs.Reading.Names
import PrologTerms.Proofs.Token.Tiling

/-!
# Reading clause by clause

A reader gives the clauses of a text one at a time: the term of each clause, or the error in its place,
until nothing is left. It goes on behind errors with what they leave. Each clause takes something from the
text, so that there are no more clauses and errors than there are bytes, and while a clause is read each
step takes something from the text or completes a term that was begun.
-/

namespace PrologTerms

/-- What is left of a text, and what has been put on the heap so far. -/
structure Reader where
  /-- What is left to be read. -/
  stream : LexemeStream
  /-- What is extended by the terms. -/
  draft : Draft

namespace Reader

/-- The reader of a text. -/
def ofText (text : String) (d : Draft) : Reader := ⟨.ofText text, d⟩

/-- Reads the next clause, unless nothing is left. -/
def read (g : Grammar) (r : Reader) : Option (Except ReadError Cell) × Reader :=
  match g.clause? r.stream with
  | none => (none, r)
  | some result =>
    let (c, draft) := r.draft.addClause result.value
    (some c, ⟨result.rest, draft⟩)

/-- The reader that some attempts to read a clause leave. -/
def after (g : Grammar) : Nat → Reader → Reader
  | 0, r => r
  | n + 1, r => after g n (r.read g).2

variable {g : Grammar} {r : Reader} {n : Nat}

theorem read_of_none (h : g.clause? r.stream = none) : r.read g = (none, r) := by
  rw [read, h]

theorem read_of_some {result : ReadResult} (h : g.clause? r.stream = some result) :
    r.read g = (some (r.draft.addClause result.value).1,
      ⟨result.rest, (r.draft.addClause result.value).2⟩) := by
  rw [read, h]

theorem after_succ (g : Grammar) (n : Nat) (r : Reader) :
    r.after g (n + 1) = ((r.after g n).read g).2 := by
  induction n generalizing r with
  | zero => rfl
  | succ n ih => exact ih (r.read g).2

/-! ## What is read is what reading all clauses gives -/

theorem draft_after (g : Grammar) (n : Nat) (r : Reader) :
    (r.after g n).draft = (r.draft.addClauses ((g.clauses r.stream).take n)).2 := by
  induction n generalizing r with
  | zero => rfl
  | succ n ih =>
    rw [after, ih]
    cases h : g.clause? r.stream with
    | none => rw [read_of_none h, Grammar.clauses_of_none h, List.take_nil, List.take_nil]
    | some result =>
      rw [read_of_some h, Grammar.clauses_of_some h, List.take_succ_cons]
      rfl

theorem addsNames_after (g : Grammar) (n : Nat) (r : Reader) :
    r.draft.AddsNames (r.after g n).draft := by
  rw [draft_after]
  exact r.draft.addsNames_addClauses _

/-- The attempts give, one after the other, the results of adding all clauses. -/
theorem fst_read_after (g : Grammar) (n : Nat) (r : Reader) :
    ((r.after g n).read g).1 = (r.draft.addClauses (g.clauses r.stream)).1[n]? := by
  induction n generalizing r with
  | zero =>
    rw [after]
    cases h : g.clause? r.stream with
    | none =>
      rw [read_of_none h, Grammar.clauses_of_none h]
      rfl
    | some result =>
      rw [read_of_some h, Grammar.clauses_of_some h]
      rfl
  | succ n ih =>
    rw [after, ih]
    cases h : g.clause? r.stream with
    | none =>
      rw [read_of_none h, Grammar.clauses_of_none h]
      rfl
    | some result =>
      rw [read_of_some h, Grammar.clauses_of_some h]
      rfl

end Reader

/-! ## How long it takes -/

theorem Draft.length_addClauses (d : Draft) (clauses : List (Except ReadFailure Expr)) :
    (d.addClauses clauses).1.length = clauses.length := by
  induction clauses generalizing d with
  | nil => rfl
  | cons c cs ih => exact congrArg Nat.succ (ih (d.addClause c).2)

theorem length_le_utf8Length (cs : List Char) : cs.length ≤ utf8Length cs := by
  induction cs with
  | nil => exact Nat.zero_le _
  | cons c cs ih =>
    have := c.utf8Size_pos
    rw [List.length_cons, utf8Length_cons]
    omega

theorem Cursor.length_items_le (k : Cursor) : k.items.length ≤ k.rest.length := by
  fun_induction Cursor.items k with
  | case1 => exact Nat.zero_le _
  | case2 k item k' h ih =>
    have := length_rest_lt_of_next? h
    rw [List.length_cons]
    omega

namespace LexemeStream

theorem length_ofItems_le (before : Bool) (items : List (Except LexicalError Token × Cursor)) :
    (ofItems before items).length ≤ items.length := by
  fun_induction ofItems before items with
  | case1 => exact Nat.le_refl _
  | case2 before e k items ih => exact Nat.succ_le_succ ih
  | case3 before t k items _ ih => exact Nat.le_succ_of_le ih
  | case4 before t k items _ ih => exact Nat.succ_le_succ ih

/-- There are no more lexemes and errors than bytes. -/
theorem length_ofText_le (text : String) : (ofText text).length ≤ text.utf8ByteSize := by
  have hitems := length_ofItems_le false (Cursor.ofText text).items
  have hrest := (Cursor.ofText text).length_items_le
  rw [Cursor.rest_ofText] at hrest
  have hbytes := length_le_utf8Length text.toList
  rw [← utf8ByteSize_eq] at hbytes
  exact Nat.le_trans hitems (Nat.le_trans hrest hbytes)

end LexemeStream

namespace Grammar

theorem length_clauses_le (g : Grammar) (stream : LexemeStream) :
    (g.clauses stream).length ≤ stream.length := by
  fun_induction clauses g stream with
  | case1 => exact Nat.zero_le _
  | case2 stream r h ih =>
    have := length_rest_lt_of_clause? h
    rw [List.length_cons]
    omega

/-- The steps of reading a term come to an end, with the term or an error. -/
theorem endsAfter_finish (g : Grammar) (s : ReadState) :
    ∃ n ≤ s.size, Iteration.EndsAfter g.step n s (g.finish s) := by
  fun_induction finish g s with
  | case1 s s' h ih =>
    obtain ⟨n, hn, he⟩ := ih
    have := size_step_lt h
    exact ⟨n + 1, by omega, he.head h⟩
  | case2 s r h => exact ⟨0, Nat.zero_le _, s, .refl s, h⟩

end Grammar

namespace Reader

variable {g : Grammar} {r : Reader} {n : Nat}

/-- There is nothing more to give after as many attempts as there are clauses and errors. -/
theorem fst_read_after_eq_none_iff :
    ((r.after g n).read g).1 = none ↔ (g.clauses r.stream).length ≤ n := by
  rw [fst_read_after, List.getElem?_eq_none_iff, Draft.length_addClauses]

theorem clause?_of_read (h : (r.read g).1 = none) : g.clause? r.stream = none := by
  cases hc : g.clause? r.stream with
  | none => rfl
  | some result =>
    rw [read_of_some hc] at h
    cases h

theorem read_eq_self (h : (r.read g).1 = none) : r.read g = (none, r) :=
  read_of_none (clause?_of_read h)

/-- A reader that has given something has less left to be read. -/
theorem length_read_lt (h : (r.read g).1 ≠ none) :
    (r.read g).2.stream.length < r.stream.length := by
  cases hc : g.clause? r.stream with
  | none =>
    rw [read_of_none hc] at h
    exact absurd rfl h
  | some result =>
    rw [read_of_some hc]
    exact Grammar.length_rest_lt_of_clause? hc

theorem length_read_le (g : Grammar) (r : Reader) :
    (r.read g).2.stream.length ≤ r.stream.length := by
  by_cases h : (r.read g).1 = none
  · rw [read_eq_self h]
  · exact Nat.le_of_lt (length_read_lt h)

theorem length_after_le (g : Grammar) (n : Nat) (r : Reader) :
    (r.after g n).stream.length ≤ r.stream.length := by
  induction n with
  | zero => exact Nat.le_refl _
  | succ n ih =>
    rw [after_succ]
    exact Nat.le_trans (length_read_le g _) ih

/-- A reader that has nothing more to give stays as it is. -/
theorem after_eq_of_le {count : Nat} (h : ((r.after g count).read g).1 = none) (hn : count ≤ n) :
    r.after g n = r.after g count := by
  induction n, hn using Nat.le_induction with
  | base => rfl
  | succ n _ ih => rw [after_succ, ih, read_eq_self h]

/-- Reading makes progress and comes to an end. Whatever the operators are, and whatever is on the heap,
each attempt to read a clause of a text ends after at most two steps for each byte of the text. The first
attempts, which are no more than the text has bytes, give a term or an error each and leave less of the
text, and together they leave nothing of it; all the others give nothing and change nothing. -/
theorem progress (g : Grammar) (text : String) (d : Draft) :
    (∀ n, ∃ steps ≤ 2 * text.utf8ByteSize, Iteration.EndsAfter g.step steps
        (.start OpTable.maxPriority ((ofText text d).after g n).stream)
        (g.term OpTable.maxPriority ((ofText text d).after g n).stream)) ∧
      ∃ count ≤ text.utf8ByteSize,
        (∀ n < count, (((ofText text d).after g n).read g).1 ≠ none ∧
          ((ofText text d).after g (n + 1)).stream.length <
            ((ofText text d).after g n).stream.length) ∧
        ((ofText text d).after g count).stream = [] ∧
        ∀ n, count ≤ n →
          ((ofText text d).after g n).read g = (none, (ofText text d).after g count) := by
  have hbytes : (ofText text d).stream.length ≤ text.utf8ByteSize :=
    LexemeStream.length_ofText_le text
  constructor
  · intro n
    obtain ⟨steps, hsteps, he⟩ :=
      g.endsAfter_finish (.start OpTable.maxPriority ((ofText text d).after g n).stream)
    have hle := length_after_le g n (ofText text d)
    refine ⟨steps, Nat.le_trans hsteps ?_, he⟩
    simp only [ReadState.size, ReadState.start, List.length_nil]
    omega
  · have hend := fst_read_after_eq_none_iff.2 (Nat.le_refl (g.clauses (ofText text d).stream).length)
    refine ⟨(g.clauses (ofText text d).stream).length,
      Nat.le_trans (g.length_clauses_le _) hbytes, ?_, Grammar.clause?_eq_none (clause?_of_read hend), ?_⟩
    · intro n hn
      have hsome : (((ofText text d).after g n).read g).1 ≠ none := by
        rw [Ne, fst_read_after_eq_none_iff]
        exact Nat.not_le_of_lt hn
      refine ⟨hsome, ?_⟩
      rw [after_succ]
      exact length_read_lt hsome
    · intro n hn
      rw [after_eq_of_le hend hn]
      exact read_eq_self hend

end Reader

end PrologTerms
