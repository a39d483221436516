import PrologTerms.Proofs.Reading.Places
import PrologTerms.Proofs.Report.Excerpt
import PrologTerms.Proofs.Session.Reading

/-!
# Errors of reading

Whichever way a text is read, an error concerns a piece of it, which is empty only at the end of the text,
so that the lines around the piece can be shown.
-/

namespace PrologTerms

namespace Session

/-- The error comes of reading the text in the session: its first clause, all of its clauses, or clause by
clause after any number of clauses and errors, whatever is on the heap by then. -/
inductive Reports (s : Session) (text : String) (e : ReadError) : Prop
  /-- The first clause. -/
  | parse (h : (s.parse text).1 = .error e)
  /-- All clauses. -/
  | parseAll (h : (s.parseAll text).1 = .error e)
  /-- Any clause. -/
  | read {d : Draft} {n : Nat} (h : (((Reader.ofText text d).after (s.ops.grammar text) n).read
      (s.ops.grammar text)).1 = some (.error e))

variable {s : Session} {text : String} {e : ReadError}

theorem concerns_of_parse (h : (s.parse text).1 = .error e) :
    (s.ops.grammar text).Concerns (.ofText text) e := by
  cases hr : (s.ops.grammar text).clause? (.ofText text) with
  | none =>
    rw [parse_of_none hr] at h
    cases h
    exact .unexpectedEnd
  | some r =>
    cases hv : r.value with
    | ok e' =>
      obtain ⟨journal, hparse⟩ := parse_of_ok hr hv
      rw [hparse] at h
      cases h
    | error f =>
      rw [parse_of_error hr hv] at h
      cases h
      exact (Grammar.from_clause? hr).error f hv

theorem concerns_of_parseAll (h : (s.parseAll text).1 = .error e) :
    (s.ops.grammar text).Concerns (.ofText text) e := by
  rcases all_ok_or_first_error ((s.ops.grammar text).clauses (.ofText text)) with
    ⟨es, hes⟩ | ⟨es, f, rest, hes⟩
  · obtain ⟨cs, journal, -, hparse⟩ := parseAll_of_ok hes
    rw [hparse] at h
    cases h
  · rw [parseAll_of_error hes] at h
    cases h
    exact Grammar.concerns_of_mem_clauses (hes ▸ List.mem_append_right _ List.mem_cons_self)

/-- An error is about something in the text, or about its end. -/
theorem Reports.concerns (h : s.Reports text e) : (s.ops.grammar text).Concerns (.ofText text) e := by
  cases h with
  | parse h => exact concerns_of_parse h
  | parseAll h => exact concerns_of_parseAll h
  | @read d n h => exact (Reader.concerns_of_read h).mono (Reader.suffix_after _ n _)

end Session

end PrologTerms
