/-!
# Rows of a report

A row is a sequence of characters in several styles. Styles show only where reports have colors.
-/

namespace PrologTerms

/-- The style of a character of a report. -/
inductive Style
  /-- The text that is reported on, and all spaces. -/
  | plain
  /-- The message. -/
  | message
  /-- Line numbers and what is around the text. -/
  | margin
  /-- What points at the fault. -/
  | fault
deriving Repr, DecidableEq

namespace Style

/-- The control sequence that turns a style on. -/
def turnOn : Style → String
  | .plain => ""
  | .message => "\x1b[1m"
  | .margin => "\x1b[1m\x1b[94m"
  | .fault => "\x1b[1m\x1b[91m"

/-- The control sequence that turns a style off. -/
def turnOff : Style → String
  | .plain => ""
  | .message => "\x1b[0m"
  | .margin => "\x1b[0m"
  | .fault => "\x1b[0m"

end Style

/-- A row of a report. -/
abbrev Row := List (Style × Char)

namespace Row

/-- Characters in one style. -/
def styled (s : Style) (cs : List Char) : Row := cs.map fun c => (s, c)

/-- Spaces. -/
def spaces (n : Nat) : Row := styled .plain (List.replicate n ' ')

/-- A row with characters written over it from the given column on. Up to there it is filled with
spaces, unless nothing is written. -/
def put (r : Row) (column : Nat) (cells : Row) : Row :=
  if cells.isEmpty then r
  else
    r.take column ++ spaces (column - r.length) ++ cells ++ r.drop (column + cells.length)

/-- The text of a row behind a character of the given style, with colors. -/
def colored (s : Style) : Row → String
  | [] => s.turnOff
  | (t, c) :: r =>
    if t = s then c.toString ++ colored s r
    else s.turnOff ++ t.turnOn ++ c.toString ++ colored t r

/-- The text of a row. -/
def text (color : Bool) (r : Row) : String :=
  if color then colored .plain r else String.ofList (r.map Prod.snd)

@[simp] theorem length_styled (s : Style) (cs : List Char) : (styled s cs).length = cs.length := by
  simp [styled]

@[simp] theorem length_spaces (n : Nat) : (spaces n).length = n := by simp [spaces]

@[simp] theorem put_nil (r : Row) (column : Nat) : r.put column [] = r := rfl

theorem put_of_ne_nil {cells : Row} (h : cells ≠ []) (r : Row) (column : Nat) :
    r.put column cells =
      r.take column ++ spaces (column - r.length) ++ cells ++ r.drop (column + cells.length) := by
  rw [put, if_neg (by simpa using h)]

theorem length_put {cells : Row} (h : cells ≠ []) (r : Row) (column : Nat) :
    (r.put column cells).length = max r.length (column + cells.length) := by
  rw [put_of_ne_nil h]
  simp
  omega

/-- What is written over a row can be read where it was written. -/
theorem take_drop_put (r : Row) (column : Nat) (cells : Row) :
    ((r.put column cells).drop column).take cells.length = cells := by
  by_cases h : cells = []
  · simp [h]
  · have hlen : (r.take column ++ spaces (column - r.length)).length = column := by
      simp
      omega
    rw [put_of_ne_nil h, List.append_assoc (_ ++ _) cells, List.drop_left' hlen]
    simp

end Row

end PrologTerms
