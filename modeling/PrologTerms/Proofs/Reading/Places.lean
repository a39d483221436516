import PrologTerms.Proofs.Reading.Faults

/-!
# Where errors are

Every lexeme and every malformed token is read at a place that is reached by asking for one token after
the other, and covers the text from there. So an error of reading has the bytes of a piece of the text,
which is empty only at the end of the text.
-/

namespace PrologTerms

namespace Cursor

variable {k k' : Cursor} {text front : String} {item : Except LexicalError Token}

/-- What comes behind a place is given at a place that is reached from there. -/
theorem Behind.of_mem_items (hk : k.Behind text front) (h : (item, k') ∈ k.items) :
    ∃ n front' piece, (k.ask n).2.Behind text front' ∧
      (k.ask n).2.Gives text front' piece item k' := by
  fun_induction items k generalizing front with
  | case1 => cases h
  | case2 k item' k'' hnext ih =>
    obtain ⟨piece, hgives⟩ := hk.next? hnext
    rcases List.mem_cons.1 h with h | h
    · cases h
      exact ⟨0, front, piece, hk, hgives⟩
    · obtain ⟨n, front', piece', hbehind, hgives'⟩ := ih hgives.behind h
      refine ⟨n + 1, front', piece', ?_⟩
      rw [Cursor.ask, hnext]
      exact ⟨hbehind, hgives'⟩

/-- The end of the text is reached by asking often enough. -/
theorem exists_ask_rest_eq_nil (k : Cursor) : ∃ n, (k.ask n).2.rest = [] := by
  fun_induction items k with
  | case1 k hnext => exact ⟨0, next?_eq_none.1 hnext⟩
  | case2 k item k' hnext ih =>
    obtain ⟨n, hn⟩ := ih
    refine ⟨n + 1, ?_⟩
    rw [Cursor.ask, hnext]
    exact hn

end Cursor

namespace LexemeStream

variable {items : List (Except LexicalError Token × Cursor)} {before : Bool}

/-- A lexeme is one of the tokens. -/
theorem exists_of_ok_mem {l : Lexeme} (h : .ok l ∈ ofItems before items) :
    ∃ k, (.ok l.token, k) ∈ items := by
  fun_induction ofItems before items with
  | case1 => cases h
  | case2 before e k items ih =>
    rcases List.mem_cons.1 h with h | h
    · cases h
    · obtain ⟨k', hk⟩ := ih h
      exact ⟨k', List.mem_cons_of_mem _ hk⟩
  | case3 before t k items _ ih =>
    obtain ⟨k', hk⟩ := ih h
    exact ⟨k', List.mem_cons_of_mem _ hk⟩
  | case4 before t k items _ ih =>
    rcases List.mem_cons.1 h with h | h
    · cases h
      exact ⟨k, List.mem_cons_self⟩
    · obtain ⟨k', hk⟩ := ih h
      exact ⟨k', List.mem_cons_of_mem _ hk⟩

/-- An error in the stream is a malformed token. -/
theorem exists_of_error_mem {e : ReadError} (h : .error e ∈ ofItems before items) :
    ∃ e' k, (.error e', k) ∈ items ∧ e = e'.toReadError := by
  fun_induction ofItems before items with
  | case1 => cases h
  | case2 before e' k items ih =>
    rcases List.mem_cons.1 h with h | h
    · cases h
      exact ⟨e', k, List.mem_cons_self, rfl⟩
    · obtain ⟨e'', k', hk, he⟩ := ih h
      exact ⟨e'', k', List.mem_cons_of_mem _ hk, he⟩
  | case3 before t k items _ ih =>
    obtain ⟨e'', k', hk, he⟩ := ih h
    exact ⟨e'', k', List.mem_cons_of_mem _ hk, he⟩
  | case4 before t k items _ ih =>
    rcases List.mem_cons.1 h with h | h
    · cases h
    · obtain ⟨e'', k', hk, he⟩ := ih h
      exact ⟨e'', k', List.mem_cons_of_mem _ hk, he⟩

/-- The range of bytes of a lexeme or error. -/
def itemSpan : Except ReadError Lexeme → Span
  | .ok l => l.token.span
  | .error e => e.span

/-- A lexeme or error of a text is given at a place of the text, and has the form of its kind. -/
theorem exists_gives {text : String} {x : Except ReadError Lexeme} (h : x ∈ ofText text) :
    ∃ item k', (PrologTerms.itemSpan item = itemSpan x) ∧ (∀ l, x = .ok l → item = .ok l.token) ∧
      ∃ n front piece, ((Cursor.ofText text).ask n).2.Behind text front ∧
        ((Cursor.ofText text).ask n).2.Gives text front piece item k' := by
  have hbehind := Cursor.behind_ofText text
  cases x with
  | ok l =>
    obtain ⟨k, hk⟩ := exists_of_ok_mem h
    exact ⟨.ok l.token, k, rfl, fun l' hl' => (by cases hl'; rfl), hbehind.of_mem_items hk⟩
  | error e =>
    obtain ⟨e', k, hk, rfl⟩ := exists_of_error_mem h
    exact ⟨.error e', k, rfl, fun l' hl' => (by cases hl'), hbehind.of_mem_items hk⟩

end LexemeStream

/-! ## Errors -/

/-- The text is cut where the range starts and stops, at a place that is reached by asking for tokens, and
the range is empty only at the end of the text. -/
structure Span.Placed (s : Span) (text front piece back : String) : Prop where
  /-- The range covers a piece of the text. -/
  covers : s.Covers text front piece back
  /-- It is empty only at the end. -/
  nonempty : piece = "" → back = ""
  /-- Its start is reached by asking for tokens. -/
  reached : ∃ n, ((Cursor.ofText text).ask n).2.Behind text front

theorem Span.placed_point (text : String) :
    (Span.point (utf8Length text.toList)).Placed text text "" "" := by
  have hsize : utf8Length text.toList = text.utf8ByteSize := (utf8ByteSize_eq text).symm
  refine ⟨⟨?_, hsize, ?_⟩, fun _ => rfl, ?_⟩
  · rw [String.append_empty, String.append_empty]
  · rw [String.append_empty]
    exact hsize
  · obtain ⟨n, hn⟩ := (Cursor.ofText text).exists_ask_rest_eq_nil
    obtain ⟨front, hk⟩ := (Cursor.behind_ofText text).ask n
    have hfront : text = front := by
      have htext := hk.text
      rwa [hn, String.ofList_nil, String.append_empty] at htext
    exact ⟨n, hfront ▸ hk⟩

theorem LexemeStream.exists_placed {text : String} {x : Except ReadError Lexeme} (h : x ∈ ofText text) :
    ∃ front piece back, (itemSpan x).Placed text front piece back := by
  obtain ⟨item, k', hspan, -, n, front, piece, hbehind, hgives⟩ := exists_gives h
  have hcovers := hgives.covers
  rw [hspan] at hcovers
  exact ⟨front, piece, _, hcovers, fun hp => absurd hp hgives.nonempty, n, hbehind⟩

/-- An error of reading a text has the bytes of a piece of the text. -/
theorem Grammar.Concerns.exists_placed {ops : OpTable} {text : String} {e : ReadError}
    (h : (ops.grammar text).Concerns (.ofText text) e) :
    ∃ front piece back, e.span.Placed text front piece back := by
  cases h with
  | token h => exact LexemeStream.exists_placed h
  | lexeme hl => exact LexemeStream.exists_placed hl
  | unexpectedEnd => exact ⟨_, _, _, Span.placed_point text⟩
  | missing => exact ⟨_, _, _, Span.placed_point text⟩

end PrologTerms
