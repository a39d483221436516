import PrologTerms.Report.Extract
import PrologTerms.Text.Position

/-!
# Windows

A report fits a screen, so that of lines that are too long, or far indented, only a part is shown:
the window. It is the same for all lines of a report and follows the columns that are marked. The
length of a line is taken as its number of bytes, which is never less than its number of columns.
-/

namespace PrologTerms

namespace SourceLine

/-- Does nothing show in the line? -/
def isBlank (l : SourceLine) : Bool := l.chars.all PrologTerms.isBlank

/-- The number of blanks that are shown before the first other character of a line. -/
def indentation (l : SourceLine) : Nat := (shownLine (l.chars.takeWhile PrologTerms.isBlank)).length

end SourceLine

/-- The smallest indentation of lines in which something shows. -/
def indentation? (ls : List SourceLine) : Option Nat :=
  ((ls.filter fun l => !l.isBlank).map (·.indentation)).min?

/-- The length of the longest line. -/
def longestLine (ls : List SourceLine) : Nat :=
  ls.foldr (fun l n => max (utf8Length l.chars) n) 0

/-- The part of the lines that is shown. -/
structure Window where
  /-- The number of columns for a line. -/
  room : Nat
  /-- The number of characters that are left out at the start of each line. -/
  left : Nat
  /-- The number of characters of a line before the end of what is shown, if the line does not fit
  the room. -/
  right : Nat
  /-- The length up to which a line ends without dots. -/
  limit : Nat
deriving Repr, DecidableEq

namespace Window

/-- The number of columns of a report. -/
def reportColumns : Nat := 140

/-- The number of columns around the marks, and of the indentation, that are shown if possible. -/
def surround : Nat := 6

/-- The largest indentation, without the columns around the marks, that is shown as it is. -/
def fullIndentation : Nat := 20

/-- The number of columns that are kept of a larger indentation. -/
def keptIndentation : Nat := 16

/-- The first and the last place of a window: from the indentation on if the marks show there, else
in the middle around the marks, or just the marks if those do not fit. There is none if the marks
stop before the indentation, or before they start. -/
def around? (room indentation : Nat) (marks : Mark) : Option (Nat × Nat) :=
  if marks.stop < indentation then none
  else if marks.stop - indentation ≤ room then some (indentation, indentation + room)
  else if marks.stop < marks.start then none
  else if marks.stop - marks.start ≤ room then
    let left := marks.start - (room - (marks.stop - marks.start)) / 2
    some (left, left + room)
  else some (marks.start, marks.stop)

/-- The window of lines of the given length and indentation. -/
def ofIndentation? (room longest indentation : Nat) (marks : Mark) : Option Window :=
  let indentation := indentation - surround
  let marks : Mark := ⟨marks.start - surround, marks.stop + surround⟩
  let left := if indentation > fullIndentation then indentation - keptIndentation else 0
  let ends :=
    if longest - left > room then around? room indentation marks else some (left, max longest left)
  ends.map fun (left, right) =>
    ⟨room, left, right, if right = marks.stop then right - surround else right⟩

/-- The window of lines with marks. Of lines in which nothing shows all is left out; what is shown
for a character has at most four times its length. -/
def of? (room : Nat) (ls : List SourceLine) (marks : Mark) : Option Window :=
  let longest := longestLine ls
  match indentation? ls with
  | some n => ofIndentation? room longest n marks
  | none =>
    let all := tabSpaces * longest + 1
    some ⟨room, all, all, all⟩

/-- The characters of a line that are shown. -/
def clip (w : Window) (cs : List Char) : List Char :=
  let size := utf8Length cs
  let left := min w.left size
  let right := if size - w.left ≤ w.room then size else min size w.right
  takeRoom (right - left) (cs.drop left)

/-- Are there dots at the start of the lines? -/
def cutsStart (w : Window) : Bool := 0 < w.left

/-- Are there dots at the end of a line? -/
def cutsEnd (w : Window) (cs : List Char) : Bool :=
  w.limit < utf8Length cs && w.left + w.room < utf8Length cs

/-- The number of columns that are left out at the start of a line. -/
def shift (w : Window) (cs : List Char) : Nat := PrologTerms.room (cs.take w.left)

end Window

end PrologTerms
