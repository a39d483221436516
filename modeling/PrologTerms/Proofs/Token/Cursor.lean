import PrologTerms.Token.Lexer

/-!
# The tokens behind a place

What comes behind a place in a text is one token or error, and what comes behind that.
-/

namespace PrologTerms

namespace Cursor

variable {k : Cursor} {c : Char} {cs : List Char}

theorem rest_ofText (text : String) : (ofText text).rest = text.toList := rfl

theorem offset_ofText (text : String) : (ofText text).offset = 0 := rfl

/-- What comes next is what is read at the place, be it a token or an error, and the place behind it. -/
theorem next?_eq_some {item : Except LexicalError Token} {k' : Cursor} (h : k.next? = some (item, k')) :
    ∃ c cs split, k.rest = c :: cs ∧ k' = k.move split ∧
      ((∃ kind s, scanToken c cs = ⟨.ok (kind, s), split⟩ ∧
          item = .ok ⟨kind, s, ⟨k.offset, k'.offset⟩, k.pos⟩) ∨
        ∃ f, scanToken c cs = ⟨.error f, split⟩ ∧ item = .error ⟨f, ⟨k.offset, k'.offset⟩, k.pos⟩) := by
  unfold next? at h
  split at h
  · cases h
  · next c cs hk =>
    refine ⟨c, cs, (scanToken c cs).split, hk, ?_⟩
    generalize scanToken c cs = scan at h
    obtain ⟨value, split⟩ := scan
    cases value with
    | ok t =>
      cases h
      exact ⟨rfl, .inl ⟨t.1, t.2, rfl, rfl⟩⟩
    | error f =>
      cases h
      exact ⟨rfl, .inr ⟨f, rfl, rfl⟩⟩

/-- Nothing comes next only at the end of a text. -/
theorem next?_eq_none : k.next? = none ↔ k.rest = [] := by
  unfold next?
  split
  · next h => exact iff_of_true rfl h
  · next c cs h =>
    refine iff_of_false ?_ (by simp [h])
    dsimp only
    split <;> exact Option.some_ne_none _

theorem items_of_next? {item : Except LexicalError Token} {k' : Cursor} (h : k.next? = some (item, k')) :
    k.items = (item, k') :: k'.items := by
  rw [items]
  split
  · next e =>
    rw [h] at e
    cases e
  · next e =>
    rw [h] at e
    cases e
    rfl

/-- Nothing comes behind the end of a text. -/
theorem items_nil (hk : k.rest = []) : k.items = [] := by
  rw [items]
  split
  · rfl
  · next e =>
    rw [next?_eq_none.2 hk] at e
    cases e

theorem rest_of_items_nil (h : k.items = []) : k.rest = [] := by
  rw [← next?_eq_none]
  cases hnext : k.next? with
  | none => rfl
  | some p =>
    rw [items_of_next? hnext] at h
    cases h

/-- The first item is what comes next, and the others come behind it. -/
theorem next?_of_items_cons {item : Except LexicalError Token} {k' : Cursor}
    {more : List (Except LexicalError Token × Cursor)} (h : k.items = (item, k') :: more) :
    k.next? = some (item, k') ∧ k'.items = more := by
  cases hnext : k.next? with
  | none =>
    rw [items_nil (next?_eq_none.1 hnext)] at h
    cases h
  | some p =>
    rw [items_of_next? hnext] at h
    cases h
    exact ⟨rfl, rfl⟩

theorem items_ok (hk : k.rest = c :: cs) {kind : TokenKind} {s : String} {split : Split}
    (h : scanToken c cs = ⟨.ok (kind, s), split⟩) : k.items =
      (.ok ⟨kind, s, ⟨k.offset, (k.move split).offset⟩, k.pos⟩, k.move split) ::
        (k.move split).items := by
  refine items_of_next? ?_
  unfold next?
  rw [hk]
  simp only [h]

theorem items_error (hk : k.rest = c :: cs) {f : LexicalFault} {split : Split}
    (h : scanToken c cs = ⟨.error f, split⟩) : k.items =
      (.error ⟨f, ⟨k.offset, (k.move split).offset⟩, k.pos⟩, k.move split) ::
        (k.move split).items := by
  refine items_of_next? ?_
  unfold next?
  rw [hk]
  simp only [h]

/-- Going on behind two pieces of text, one after the other. -/
theorem move_after (k : Cursor) (front : List Char) (s : Split) :
    k.move (s.after front) = (k.move ⟨front, s.whole⟩).move s := by
  simp only [move, Split.after, utf8Length_append, Position.advanceAll_append, Nat.add_assoc]

end Cursor

end PrologTerms
