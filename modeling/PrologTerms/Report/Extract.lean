import PrologTerms.Report.Excerpt
import PrologTerms.Text.Columns

/-!
# Extracts

An extract is what a report shows of an excerpt: the lines that the range concerns, with marks. If
the range is within one line, the mark covers what the range covers, else its first column in the
line in which it starts, and its last column in the line in which it stops.
-/

namespace PrologTerms

/-- Columns of a line. -/
structure Mark where
  /-- The first column. -/
  start : Nat
  /-- The column behind the last one. -/
  stop : Nat
deriving Repr, DecidableEq

namespace Mark

/-- The mark of one column. -/
def single (column : Nat) : Mark := ⟨column, column + 1⟩

/-- The columns from the start of the one to the stop of the other mark, whichever comes first. -/
def hull (a b : Mark) : Mark := ⟨min a.start b.start, max a.stop b.stop⟩

end Mark

namespace SourceLine

/-- The columns of a line before a place of the excerpt. -/
def columnsBefore (l : SourceLine) (offset : Nat) : Nat := columns (l.before offset)

/-- The mark of a range within a line. At least one column is marked. -/
def markWithin (l : SourceLine) (range : Span) : Mark :=
  let start := l.columnsBefore range.start
  let stop := l.columnsBefore range.stop
  ⟨start, if start = stop then stop + 1 else stop⟩

/-- The mark of the start of a range. -/
def markStart (l : SourceLine) (range : Span) : Mark := .single (l.columnsBefore range.start)

/-- The mark of the stop of a range. If the range includes the end of the line, the mark is behind
the last character. -/
def markStop (l : SourceLine) (range : Span) : Mark :=
  .single (l.columnsBefore range.stop - 1 + if l.stop < range.stop then 1 else 0)

end SourceLine

/-- The lines of an excerpt that a report shows, with their marks. -/
inductive Extract
  /-- No line. -/
  | none
  /-- The one line in which the range is. -/
  | single (line : SourceLine) (mark : Mark)
  /-- The line in which the range starts, the lines between, and the line in which it stops. -/
  | several (first : SourceLine) (start : Mark) (middle : List SourceLine) (last : SourceLine)
      (stop : Mark)
deriving Repr

namespace Extract

/-- The lines that a range concerns. -/
def of (range : Span) : List SourceLine → Extract
  | [] => .none
  | first :: rest =>
    if range.stop ≤ first.reach then .single first (first.markWithin range)
    else
      match rest.dropWhile (·.reach < range.stop) with
      | [] => .single first (first.markWithin range)
      | last :: _ =>
        .several first (first.markStart range) (rest.takeWhile (·.reach < range.stop)) last
          (last.markStop range)

/-- The number of the last line that is shown. -/
def lastNumber : Extract → Nat
  | .none => 0
  | .single l _ => l.number
  | .several _ _ _ last _ => last.number

/-- Does the range go over several lines? -/
def isSeveral : Extract → Bool
  | .several .. => true
  | _ => false

/-- The columns between all marks. -/
def hull : Extract → Mark
  | .none => ⟨0, 0⟩
  | .single _ m => m
  | .several _ start _ _ stop => start.hull stop

end Extract

end PrologTerms
