/-!
# Places in a text

A `Position` counts lines and columns in characters, both from zero; a `Span` is a range of byte
offsets into the UTF-8 encoding of the text. Only a line feed ends a line.
-/

namespace PrologTerms

/-- A place between two characters of a text. -/
structure Position where
  /-- The number of line feeds before the place. -/
  line : Nat := 0
  /-- The number of characters between the last line feed and the place. -/
  column : Nat := 0
deriving Repr, DecidableEq

namespace Position

/-- The place behind the character `c`. -/
def advance (p : Position) (c : Char) : Position :=
  if c = '\n' then ⟨p.line + 1, 0⟩ else ⟨p.line, p.column + 1⟩

/-- The place behind a run of characters. -/
def advanceAll (p : Position) (cs : List Char) : Position := cs.foldl advance p

/-- The place in words, counted from one. -/
def describe (p : Position) : String := s!"line {p.line + 1}, column {p.column + 1}"

@[simp] theorem advanceAll_nil (p : Position) : p.advanceAll [] = p := rfl

@[simp] theorem advanceAll_append (p : Position) (as bs : List Char) :
    p.advanceAll (as ++ bs) = (p.advanceAll as).advanceAll bs := by
  simp [advanceAll]

end Position

/-- A range of byte offsets, from `start` up to, but not including, `stop`. -/
structure Span where
  /-- The offset of the first byte. -/
  start : Nat
  /-- The offset behind the last byte. -/
  stop : Nat
deriving Repr, DecidableEq

namespace Span

/-- The empty range at an offset. -/
def point (n : Nat) : Span := ⟨n, n⟩

/-- The number of bytes in the range, if its ends are in order. -/
def length? (s : Span) : Option Nat := if s.start ≤ s.stop then some (s.stop - s.start) else none

/-- Does the range start where it stops? -/
def isEmpty (s : Span) : Bool := s.start == s.stop

/-- The two ends, written with two dots between them. -/
def describe (s : Span) : String := s!"{s.start}..{s.stop}"

end Span

/-- The number of bytes that a run of characters takes in UTF-8. -/
def utf8Length (cs : List Char) : Nat := cs.foldr (fun c n => c.utf8Size + n) 0

@[simp] theorem utf8Length_nil : utf8Length [] = 0 := rfl

@[simp] theorem utf8Length_cons (c : Char) (cs : List Char) :
    utf8Length (c :: cs) = c.utf8Size + utf8Length cs := rfl

@[simp] theorem utf8Length_append (as bs : List Char) :
    utf8Length (as ++ bs) = utf8Length as + utf8Length bs := by
  induction as with
  | nil => simp
  | cons a as ih => simp [ih, Nat.add_assoc]

end PrologTerms
