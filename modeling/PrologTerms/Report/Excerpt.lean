import PrologTerms.Text.Position
import PrologTerms.Text.Split

/-!
# Excerpts

An excerpt is the part of a text that a range of bytes concerns: the lines from the one in which the
range starts to the one in which it stops. An empty range is taken to concern the character behind
it.
-/

namespace PrologTerms

/-- Divides a text behind the given number of bytes, unless that is within a character or behind the
end. -/
def splitBytes? : Nat → List Char → Option Split
  | 0, cs => some ⟨[], cs⟩
  | _ + 1, [] => none
  | n + 1, c :: cs =>
    if c.utf8Size ≤ n + 1 then (splitBytes? (n + 1 - c.utf8Size) cs).map (·.after [c]) else none

/-- The whole lines around a range of a text. -/
structure Excerpt where
  /-- The number of the first line, counted from one. -/
  firstLine : Nat
  /-- The characters of the lines; the line feed of the last line does not belong to them. -/
  chars : List Char
  /-- The range, counted in bytes from the start of the excerpt. -/
  range : Span
deriving Repr, DecidableEq

namespace Excerpt

/-- The range that is concerned: within the text, and if possible not empty. -/
def extend (span : Span) (text : List Char) : Option Span :=
  let size := utf8Length text
  let start := min span.start size
  let stop := min span.stop size
  if start < stop then some ⟨start, stop⟩
  else
    (splitBytes? start text).map fun s =>
      match s.rest with
      | [] => ⟨start, stop⟩
      | c :: _ => ⟨start, start + c.utf8Size⟩

/-- The excerpt of a text for a range. There is none if an end of the range is within a character,
or if the range stops in a line before the one in which it starts. -/
def of? (text : List Char) (span : Span) : Option Excerpt := do
  let range ← extend span text
  let before ← splitBytes? range.start text
  let behind ← splitBytes? range.stop text
  let lineStart := range.start - utf8Length (before.taken.reverse.takeWhile (· ≠ '\n'))
  let lineStop := range.stop + utf8Length (behind.rest.takeWhile (· ≠ '\n'))
  if range.stop < lineStart then none
  else
    let lines ← splitBytes? lineStart text
    let cut ← splitBytes? (lineStop - lineStart) lines.rest
    pure ⟨before.taken.count '\n' + 1, cut.taken,
      ⟨range.start - lineStart, range.stop - lineStart⟩⟩

end Excerpt

/-! ## Lines -/

/-- A line of an excerpt. -/
structure SourceLine where
  /-- The number of the line. -/
  number : Nat
  /-- The bytes of the excerpt before the line. -/
  start : Nat
  /-- The characters of the line, without those that end it. -/
  chars : List Char
  /-- The number of bytes that end the line; none at the end of the excerpt. -/
  endSize : Nat
deriving Repr, DecidableEq

namespace SourceLine

/-- The bytes of the excerpt up to the end of the characters of the line. -/
def stop (l : SourceLine) : Nat := l.start + utf8Length l.chars

/-- The bytes of the excerpt up to the end of the line. -/
def reach (l : SourceLine) : Nat := l.stop + max l.endSize 1

/-- The characters of the line before a place of the excerpt. -/
def before (l : SourceLine) (offset : Nat) : List Char :=
  match splitBytes? (min offset l.stop - l.start) l.chars with
  | some s => s.taken
  | none => []

end SourceLine

/-- The lines of a text, each with the number of bytes that end it. -/
def splitLines : List Char → List (List Char × Nat)
  | [] => []
  | c :: cs =>
    if c = '\n' then ([], 1) :: splitLines cs
    else
      match splitLines cs with
      | [] => [([c], 0)]
      | (l, n) :: ls => (c :: l, n) :: ls

/-- Counts a carriage return before a line feed among the bytes that end the line. -/
def dropReturn (l : List Char × Nat) : List Char × Nat :=
  if l.2 = 1 ∧ l.1.getLast? = some '\r' then (l.1.dropLast, 2) else l

/-- Gives lines their numbers and places. -/
def numberLines : (number start : Nat) → List (List Char × Nat) → List SourceLine
  | _, _, [] => []
  | number, start, (cs, endSize) :: ls =>
    let l : SourceLine := ⟨number, start, cs, endSize⟩
    l :: numberLines (number + 1) (l.stop + endSize) ls

/-- The lines of an excerpt. -/
def Excerpt.lines (e : Excerpt) : List SourceLine :=
  numberLines e.firstLine 0 ((splitLines e.chars).map dropReturn)

end PrologTerms
