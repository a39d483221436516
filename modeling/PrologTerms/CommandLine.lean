import PrologTerms.Report.Basic
import PrologTerms.Session.Reading
import PrologTerms.Session.Unify

/-!
# Commands on a file

The program lists the tokens of a file, writes its clauses back, or unifies its first two clauses.
What it prints is a function of the text of the file.
-/

namespace PrologTerms

/-- What can be done with a file. -/
inductive Command
  /-- List the tokens. -/
  | tokenize
  /-- Write the clauses back. -/
  | parse
  /-- Unify the first two clauses. -/
  | unify
deriving Repr, DecidableEq

namespace Command

/-- The name of a command. -/
def name : Command → String
  | .tokenize => "tokenize"
  | .parse => "parse"
  | .unify => "unify"

/-- The command of a name, if it is the name of one. -/
def ofName? (s : String) : Option Command := [tokenize, parse, unify].find? (·.name == s)

end Command

/-- What a command prints, and its exit code. -/
structure Outcome where
  /-- The exit code. -/
  code : Nat
  /-- The lines of the result. -/
  results : List String
  /-- The lines of the error, if there is one. -/
  errors : List String
deriving Repr, DecidableEq

namespace Outcome

/-- A result without an error. -/
def ok (results : List String) : Outcome := ⟨0, results, []⟩

/-- An error, and what was printed before. -/
def failed (results : List String) (error : String) : Outcome := ⟨1, results, [error]⟩

/-- The text of several lines. -/
def linesText (ls : List String) : String := String.join (ls.map (· ++ "\n"))

/-- What goes to the standard output. -/
def output (o : Outcome) : String := linesText o.results

/-- What goes to the standard error output. -/
def errorOutput (o : Outcome) : String := linesText o.errors

end Outcome

/-- Lists tokens up to the first error. -/
def listTokens (file : String) : List (Except LexicalError Token × Cursor) → Outcome
  | [] => .ok []
  | (.ok t, _) :: items =>
    let o := listTokens file items
    { o with results := t.listing :: o.results }
  | (.error e, _) :: _ => .failed [] (file ++ ": " ++ e.message)

/-- The report of an error in a file. -/
def reportText (file text : String) (color : Bool) (e : ReadError) : String :=
  match e.report? text file with
  | some r => r.render color
  | none => e.message

/-- Unifies the first two of some terms. -/
def unifyFirst (s : Session) (file : String) : List Cell → Outcome
  | a :: b :: _ =>
    match s.unify? a b with
    | some (.unified, s) => .ok ["yes: " ++ (s.text? a).getD "", s.status]
    | some (_, s) => .ok ["no", s.status]
    | none => .failed [] (file ++ ": unification does not end")
  | _ => .failed [] (file ++ ": expected at least two clauses")

/-- Carries out a command on a file of the given name and text. -/
def Command.run (c : Command) (file text : String) (color : Bool) : Outcome :=
  match c with
  | .tokenize => listTokens file (Cursor.ofText text).items
  | .parse =>
    match ({} : Session).parseAll text with
    | (.error e, _) => .failed [] (reportText file text color e)
    | (.ok cs, s) => .ok (cs.map fun c => (s.clauseText? c).getD "")
  | .unify =>
    match ({} : Session).parseAll text with
    | (.error e, _) => .failed [] (reportText file text color e)
    | (.ok cs, s) => unifyFirst s file cs

end PrologTerms
