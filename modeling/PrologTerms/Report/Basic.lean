import PrologTerms.Reading.Error
import PrologTerms.Report.Excerpt
import PrologTerms.Report.Extract
import PrologTerms.Report.Row
import PrologTerms.Report.Window
import PrologTerms.Text.Columns

/-!
# Error reports

A report shows an error with the lines of the text at fault. A fault within one line is marked from
below; around a fault of several lines there is a line drawn from its first to its last character,
of which only the lines at both ends are shown if there are many. Dots stand for what is left out of
lines that do not fit the window.
-/

namespace PrologTerms

/-- What a report is about. -/
structure Report where
  /-- What the text is called. -/
  origin : String
  /-- What is wrong. -/
  message : String
  /-- The lines at fault. -/
  excerpt : Excerpt
  /-- The part of the lines that is shown. -/
  window : Window
deriving Repr, DecidableEq

namespace Report

/-- The digits of a number. -/
def digits (n : Nat) : List Char := Nat.toDigits 10 n

/-- The dots in place of what is left out. -/
def dots : Row := Row.styled .margin "...".toList

/-- The upright line between the ends of a fault. -/
def bar : Row := Row.styled .fault ['|']

/-! ## The columns of a report -/

/-- Where things stand in the rows of the lines. -/
structure Grid where
  /-- The width of the column of line numbers. -/
  numberWidth : Nat
  /-- Is a line drawn along the margin? -/
  sided : Bool
  /-- The part of the lines that is shown. -/
  window : Window
deriving Repr, DecidableEq

namespace Grid

/-- The grid of a window and the lines that are shown. -/
def of (w : Window) (x : Extract) : Grid :=
  ⟨match x with
    | .none => 0
    | x => (digits x.lastNumber).length,
   x.isSeveral, w⟩

/-- The column of the line along the margin. -/
def side (g : Grid) : Nat := g.numberWidth + 3

/-- The first column of the text. -/
def textColumn (g : Grid) : Nat := if g.sided then g.side + 2 else g.side

/-- The margin of a row without a line number. -/
def emptyMargin (g : Grid) : Row :=
  Row.spaces (g.numberWidth + 1) ++ Row.styled .margin ['|']

/-- The margin of a row with a line. -/
def lineMargin (g : Grid) (l : SourceLine) : Row :=
  let ds := digits l.number
  Row.styled .margin (List.replicate (g.numberWidth - ds.length) ' ' ++ ds ++ [' ', '|'])

/-- Writes what is shown of a line into a row. -/
def putLine (g : Grid) (l : SourceLine) (r : Row) : Row :=
  let text := shownLine l.chars
  let shown := g.window.clip text
  let r := r.put g.textColumn (Row.styled .plain shown)
  let r := if g.window.cutsStart then r.put g.textColumn dots else r
  if g.window.cutsEnd text then r.put (g.textColumn + room shown - dots.length) dots else r

/-- The place of a column of a line in its row. -/
def place (g : Grid) (l : SourceLine) (column : Nat) : Nat :=
  g.textColumn + column - g.window.shift (shownLine l.chars)

/-- Points at the marked columns of a line. -/
def putMark (g : Grid) (l : SourceLine) (m : Mark) (r : Row) : Row :=
  if m.stop ≤ m.start then r
  else
    let start := g.place l m.start
    r.put start
      (Row.styled .fault (List.replicate (g.place l (m.stop - 1) + 1 - start) '^'))

/-- Draws a line from the margin to the start of a mark. -/
def putLead (g : Grid) (l : SourceLine) (m : Mark) (r : Row) : Row :=
  r.put (g.side + 1) (Row.styled .fault (List.replicate (g.place l m.start - g.side) '_'))

/-! ## The rows of the lines -/

/-- The rows of a range within a line. -/
def singleRows (g : Grid) (l : SourceLine) (m : Mark) : List Row :=
  [g.putLine l (g.lineMargin l), g.putMark l m g.emptyMargin]

/-- The rows of the line in which a range starts. If nothing shows before the range, the line along
the margin starts beside it, else below. -/
def firstRows (g : Grid) (l : SourceLine) (m : Mark) : List Row :=
  if ((shownLine l.chars).take m.start).all isBlank then
    [(g.putLine l (g.lineMargin l)).put g.side (Row.styled .fault ['/'])]
  else [g.putLine l (g.lineMargin l), g.putMark l m (g.putLead l m g.emptyMargin)]

/-- The row of a line within a range. -/
def middleRow (g : Grid) (l : SourceLine) : Row := g.putLine l ((g.lineMargin l).put g.side bar)

/-- The row in place of lines within a range. -/
def foldRow (g : Grid) : Row := dots.put g.side bar

/-- The rows of the lines within a range: of more than three, only the first and the last. -/
def middleRows (g : Grid) (ls : List SourceLine) : List Row :=
  match ls, ls.getLast? with
  | first :: _ :: _ :: _ :: _, some last => [g.middleRow first, g.foldRow, g.middleRow last]
  | ls, _ => ls.map g.middleRow

/-- The rows of the line in which a range stops. -/
def lastRows (g : Grid) (l : SourceLine) (m : Mark) : List Row :=
  [(g.putLine l (g.lineMargin l)).put g.side bar,
    g.putMark l m ((g.putLead l m g.emptyMargin).put g.side bar)]

/-- The rows of the lines. -/
def rows (g : Grid) : Extract → List Row
  | .none => []
  | .single l m => g.singleRows l m
  | .several first start middle last stop =>
    g.firstRows first start ++ g.middleRows middle ++ g.lastRows last stop

end Grid

/-! ## The whole report -/

/-- The row of the message. -/
def messageRow (r : Report) : Row :=
  Row.styled .fault "error".toList ++
    if r.message.isEmpty then []
    else Row.styled .plain ": ".toList ++ Row.styled .message r.message.toList

/-- The row of the place, counted from one; without lines the place is the start of the text. -/
def placeRow (r : Report) (g : Grid) : Row :=
  let (line, column) := match r.excerpt.lines with
    | [] => (1, 1)
    | first :: _ => (first.number, (first.before r.excerpt.range.start).length + 1)
  Row.spaces g.numberWidth ++ Row.styled .margin "-->".toList ++
    Row.styled .plain ((if r.origin.isEmpty then [] else ' ' :: r.origin.toList) ++
      ':' :: digits line ++ ':' :: digits column)

/-- All rows of a report. -/
def rows (r : Report) : List Row :=
  let x := Extract.of r.excerpt.range r.excerpt.lines
  let g := Grid.of r.window x
  [r.messageRow, r.placeRow g, g.emptyMargin] ++ g.rows x ++ [g.emptyMargin]

/-- The text of a report, without a line feed at its end. -/
def render (r : Report) (color : Bool) : String :=
  "\n".intercalate (r.rows.map (·.text color))

/-- The window of an excerpt. Beside the lines there is room for the number of the line behind them
and the margin. -/
def window? (e : Excerpt) : Option Window :=
  let ls := e.lines
  let margin := (digits (e.firstLine + ls.length)).length + 3
  Window.of? (Window.reportColumns - margin) ls (Extract.of e.range ls).hull

end Report

/-- The report of an error in a text. There is none if the range of the error is not one of the
text's, or if its lines have no window. -/
def ReadError.report? (e : ReadError) (text origin : String) : Option Report := do
  let x ← Excerpt.of? text.toList e.span
  let w ← Report.window? x
  pure ⟨origin, e.message, x, w⟩

end PrologTerms
