import PrologTerms.Failures
import PrologTerms.Reading.Draft
import PrologTerms.Session.Basic

/-!
# Reading texts in a session

What is read is added to the heap, the atoms and the names of variables, also if an error ends the
reading.
-/

namespace PrologTerms

namespace Session

/-- What is extended while terms are read. -/
def draft (s : Session) : Draft := { heap := s.heap, atoms := s.atoms, names := s.names }

/-- Takes over what was extended. -/
def withDraft (s : Session) (d : Draft) : Session :=
  { s with store := { s.store with heap := d.heap }, atoms := d.atoms, names := d.names }

/-- Records that a clause was read. -/
def noteParsed (s : Session) (c : Cell) : Session :=
  if s.journal.isNone then s else s.note (.parsed ((s.text? c).getD ""))

/-- Reads the first clause of a text. -/
def parse (s : Session) (text : String) : Except ReadError Cell × Session :=
  let g := s.ops.grammar text
  match g.clause? (.ofText text) with
  | none => (.error g.noClause, s)
  | some r =>
    let (c, d) := s.draft.addClause r.value
    let s := s.withDraft d
    match c with
    | .ok c => (.ok c, s.noteParsed c)
    | .error e => (.error e, s)

/-- Reads all clauses of a text, up to the first error. -/
def parseAll (s : Session) (text : String) : Except ReadError (List Cell) × Session :=
  let clauses := (s.ops.grammar text).clauses (.ofText text)
  let (cs, d) := s.draft.addClauses (untilFailures (!·.isOk) 1 clauses)
  let s := s.withDraft d
  match cs.mapM id with
  | .ok cs => (.ok cs, cs.foldl noteParsed s)
  | .error e => (.error e, s)

end Session

end PrologTerms
