import PrologTerms.Arena
import PrologTerms.Atom
import PrologTerms.CommandLine
import PrologTerms.Failures
import PrologTerms.Heap.Basic
import PrologTerms.Heap.Cell
import PrologTerms.Heap.Equal
import PrologTerms.Heap.Trail
import PrologTerms.Iteration
import PrologTerms.Main
import PrologTerms.Operator
import PrologTerms.Proofs.Atom
import PrologTerms.Proofs.AtomTable
import PrologTerms.Proofs.Heap.Equal
import PrologTerms.Proofs.Heap.Growth
import PrologTerms.Proofs.Heap.Occurs
import PrologTerms.Proofs.Heap.Parts
import PrologTerms.Proofs.Heap.Resolve
import PrologTerms.Proofs.Heap.Rounds
import PrologTerms.Proofs.Heap.Valuation
import PrologTerms.Proofs.Heap.View
import PrologTerms.Proofs.Heap.WellFormed
import PrologTerms.Proofs.Iteration
import PrologTerms.Proofs.Operator
import PrologTerms.Proofs.OperatorTable
import PrologTerms.Proofs.Pairwise
import PrologTerms.Proofs.Reading.Build
import PrologTerms.Proofs.Reading.Closed
import PrologTerms.Proofs.Reading.Derivation
import PrologTerms.Proofs.Reading.Draft
import PrologTerms.Proofs.Reading.Expr
import PrologTerms.Proofs.Reading.Faults
import PrologTerms.Proofs.Reading.Lines
import PrologTerms.Proofs.Reading.Meaning
import PrologTerms.Proofs.Reading.Names
import PrologTerms.Proofs.Reading.Places
import PrologTerms.Proofs.Reading.Reader
import PrologTerms.Proofs.Reading.Shift
import PrologTerms.Proofs.Reading.Sound
import PrologTerms.Proofs.Reading.Step
import PrologTerms.Proofs.Reading.Twin
import PrologTerms.Proofs.Reading.Weight
import PrologTerms.Proofs.Report.Excerpt
import PrologTerms.Proofs.Session.AnyOrder
import PrologTerms.Proofs.Session.Appends
import PrologTerms.Proofs.Session.Distinct
import PrologTerms.Proofs.Session.Equal
import PrologTerms.Proofs.Session.Errors
import PrologTerms.Proofs.Session.GeneratedNames
import PrologTerms.Proofs.Session.Independent
import PrologTerms.Proofs.Session.Lines
import PrologTerms.Proofs.Session.Listing
import PrologTerms.Proofs.Session.MostGeneral
import PrologTerms.Proofs.Session.Numbers
import PrologTerms.Proofs.Session.Printing
import PrologTerms.Proofs.Session.Reading
import PrologTerms.Proofs.Session.Request
import PrologTerms.Proofs.Session.Rollback
import PrologTerms.Proofs.Session.RoundTrip
import PrologTerms.Proofs.Session.Scoping
import PrologTerms.Proofs.Session.Sound
import PrologTerms.Proofs.Session.Symmetric
import PrologTerms.Proofs.Session.Tokens
import PrologTerms.Proofs.Session.UndoLog
import PrologTerms.Proofs.Session.VariableNames
import PrologTerms.Proofs.Session.WellFormed
import PrologTerms.Proofs.Session.Workspace
import PrologTerms.Proofs.Store.Agree
import PrologTerms.Proofs.Store.Exact
import PrologTerms.Proofs.Store.Joined
import PrologTerms.Proofs.Store.MostGeneral
import PrologTerms.Proofs.Store.Rounds
import PrologTerms.Proofs.Store.Sound
import PrologTerms.Proofs.Store.Undo
import PrologTerms.Proofs.Store.Unify
import PrologTerms.Proofs.Token.Contents
import PrologTerms.Proofs.Token.Cursor
import PrologTerms.Proofs.Token.Digits
import PrologTerms.Proofs.Token.Exact
import PrologTerms.Proofs.Token.Form
import PrologTerms.Proofs.Token.Front
import PrologTerms.Proofs.Token.Gaps
import PrologTerms.Proofs.Token.Longest
import PrologTerms.Proofs.Token.Newline
import PrologTerms.Proofs.Token.Parts
import PrologTerms.Proofs.Token.Quoted
import PrologTerms.Proofs.Token.Tiling
import PrologTerms.Proofs.Token.Value
import PrologTerms.Proofs.Token.VarName
import PrologTerms.Proofs.Tree
import PrologTerms.Proofs.Writing.Ambiguous
import PrologTerms.Proofs.Writing.Atom
import PrologTerms.Proofs.Writing.Clause
import PrologTerms.Proofs.Writing.Clear
import PrologTerms.Proofs.Writing.Crowding
import PrologTerms.Proofs.Writing.Leaves
import PrologTerms.Proofs.Writing.Lexeme
import PrologTerms.Proofs.Writing.Naming
import PrologTerms.Proofs.Writing.Operand
import PrologTerms.Proofs.Writing.Piece
import PrologTerms.Proofs.Writing.ReadBack
import PrologTerms.Proofs.Writing.Recover
import PrologTerms.Proofs.Writing.Row
import PrologTerms.Proofs.Writing.Safety
import PrologTerms.Proofs.Writing.Spelling
import PrologTerms.Proofs.Writing.Term
import PrologTerms.Proofs.Writing.Texts
import PrologTerms.Proofs.Writing.Tokens
import PrologTerms.Proofs.Writing.Unambiguous
import PrologTerms.Proofs.Writing.Underlines
import PrologTerms.Proofs.Writing.Variables
import PrologTerms.Proofs.Writing.Writer
import PrologTerms.Reading.Clause
import PrologTerms.Reading.Draft
import PrologTerms.Reading.Error
import PrologTerms.Reading.Expr
import PrologTerms.Reading.Frame
import PrologTerms.Reading.Lexeme
import PrologTerms.Reading.Operand
import PrologTerms.Reading.Term
import PrologTerms.Report.Basic
import PrologTerms.Report.Excerpt
import PrologTerms.Report.Extract
import PrologTerms.Report.Row
import PrologTerms.Report.Window
import PrologTerms.Session.Basic
import PrologTerms.Session.Reading
import PrologTerms.Session.Unify
import PrologTerms.Store.Basic
import PrologTerms.Store.Unify
import PrologTerms.Text.CharClass
import PrologTerms.Text.CharDisplay
import PrologTerms.Text.Columns
import PrologTerms.Text.Position
import PrologTerms.Text.Property.Alphabetic
import PrologTerms.Text.Property.GraphemeExtend
import PrologTerms.Text.Property.Ignorable
import PrologTerms.Text.Property.Unprintable
import PrologTerms.Text.Property.Uppercase
import PrologTerms.Text.Property.WhiteSpace
import PrologTerms.Text.Property.Wide
import PrologTerms.Text.Ranges
import PrologTerms.Text.Split
import PrologTerms.Token.Basic
import PrologTerms.Token.Digits
import PrologTerms.Token.Escape
import PrologTerms.Token.Layout
import PrologTerms.Token.Lexer
import PrologTerms.Token.Number
import PrologTerms.Token.Quoted
import PrologTerms.Token.Scan
import PrologTerms.Tree
import PrologTerms.Writing.Atom
import PrologTerms.Writing.Naming
import PrologTerms.Writing.Piece
import PrologTerms.Writing.Term
import PrologTerms.Writing.Writer
