import PrologTerms.Text.CharClass
import PrologTerms.Text.Split

/-!
# Layout

Layout is what may stand between tokens: layout characters, comments from a percent sign to the end
of the line, and comments from `/*` to `*/`, which nest. A comment that is not closed runs to the
end of the text.
-/

namespace PrologTerms

/-- Does a comment begin here? -/
def startsComment : List Char → Bool
  | '%' :: _ => true
  | '/' :: '*' :: _ => true
  | _ => false

/-- Does layout, or the end of the text, come here? -/
def startsLayout : List Char → Bool
  | [] => true
  | c :: cs => startsComment (c :: cs) || isLayout c

/-- Where in layout a character stands. -/
inductive LayoutMode
  /-- Outside of comments. -/
  | between
  /-- In a comment that ends with the line. -/
  | line
  /-- In a bracketed comment with this many others around it. -/
  | block (depth : Nat)
deriving Repr, DecidableEq

/-- Divides a text into the layout at its front and the rest. -/
def splitLayout : LayoutMode → List Char → Split
  | _, [] => ⟨[], []⟩
  | .between, '%' :: cs => (splitLayout .line cs).after ['%']
  | .between, '/' :: '*' :: cs => (splitLayout (.block 0) cs).after ['/', '*']
  | .between, c :: cs =>
    if isLayout c then (splitLayout .between cs).after [c] else ⟨[], c :: cs⟩
  | .line, c :: cs => (splitLayout (if c = '\n' then .between else .line) cs).after [c]
  | .block depth, '/' :: '*' :: cs => (splitLayout (.block (depth + 1)) cs).after ['/', '*']
  | .block 0, '*' :: '/' :: cs => (splitLayout .between cs).after ['*', '/']
  | .block (depth + 1), '*' :: '/' :: cs => (splitLayout (.block depth) cs).after ['*', '/']
  | .block depth, c :: cs => (splitLayout (.block depth) cs).after [c]

/-! ## One step -/

section Step

variable {c : Char}

theorem splitLayout_between_percent (cs : List Char) :
    splitLayout .between ('%' :: cs) = (splitLayout .line cs).after ['%'] := rfl

theorem splitLayout_between_opening (cs : List Char) :
    splitLayout .between ('/' :: '*' :: cs) = (splitLayout (.block 0) cs).after ['/', '*'] := rfl

/-- A layout character outside of comments is passed. -/
theorem splitLayout_char (h : isLayout c = true) (cs : List Char) :
    splitLayout .between (c :: cs) = (splitLayout .between cs).after [c] := by
  rw [splitLayout, if_pos h]
  · rintro rfl
    exact absurd h (by decide)
  · rintro r rfl
    exact absurd h (by decide)

theorem splitLayout_line_cons (c : Char) (cs : List Char) : splitLayout .line (c :: cs) =
    (splitLayout (if c = '\n' then .between else .line) cs).after [c] := by rw [splitLayout]

theorem splitLayout_block_opening (depth : Nat) (cs : List Char) :
    splitLayout (.block depth) ('/' :: '*' :: cs) =
      (splitLayout (.block (depth + 1)) cs).after ['/', '*'] := rfl

theorem splitLayout_block_last (cs : List Char) :
    splitLayout (.block 0) ('*' :: '/' :: cs) = (splitLayout .between cs).after ['*', '/'] := rfl

theorem splitLayout_block_closing (depth : Nat) (cs : List Char) :
    splitLayout (.block (depth + 1)) ('*' :: '/' :: cs) =
      (splitLayout (.block depth) cs).after ['*', '/'] := rfl

/-- Inside of a comment, a character with which no comment begins or ends is passed. -/
theorem splitLayout_block_char {depth : Nat} {cs : List Char} (ho : c = '/' → cs.head? ≠ some '*')
    (hc : c = '*' → cs.head? ≠ some '/') :
    splitLayout (.block depth) (c :: cs) = (splitLayout (.block depth) cs).after [c] := by
  rw [splitLayout]
  · rintro r rfl rfl
    exact ho rfl rfl
  · rintro r - rfl rfl
    exact hc rfl rfl
  · rintro n r - rfl rfl
    exact hc rfl rfl

end Step

/-! ## Nothing of the text is lost, and something is read -/

@[simp] theorem whole_splitLayout (m : LayoutMode) (cs : List Char) :
    (splitLayout m cs).whole = cs := by
  fun_induction splitLayout m cs <;> simp_all

/-- Where a comment or a layout character begins the text, there is layout. -/
theorem taken_splitLayout_ne_nil {c : Char} {cs : List Char}
    (h : startsComment (c :: cs) = true ∨ isLayout c = true) :
    (splitLayout .between (c :: cs)).taken ≠ [] := by
  rcases h with h | h
  · unfold startsComment at h
    split at h
    · next e =>
      cases e
      rw [splitLayout_between_percent]
      exact List.cons_ne_nil _ _
    · next e =>
      cases e
      rw [splitLayout_between_opening]
      exact List.cons_ne_nil _ _
    · cases h
  · rw [splitLayout_char h]
    exact List.cons_ne_nil _ _

end PrologTerms
