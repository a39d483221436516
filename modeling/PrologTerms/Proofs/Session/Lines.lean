import PrologTerms.Proofs.Reading.Lines
import PrologTerms.Proofs.Session.Reading

/-!
# Reading two texts at once

Reading the clauses of two texts with a line break between them does what reading the first text and
then the second one does, if the first one can be read, ends with a full stop, and leaves no comment
open.
-/

namespace PrologTerms

namespace Draft

/-- Outside of a clause. -/
def unscoped (d : Draft) : Draft := { d with scope := [] }

/-- Every clause has variables of its own, so that those of the last one make no difference. -/
theorem addClauses_unscoped (d : Draft) (clauses : List (Except ReadFailure Expr)) :
    (d.unscoped.addClauses clauses).1 = (d.addClauses clauses).1 ∧
      (d.unscoped.addClauses clauses).2.unscoped = (d.addClauses clauses).2.unscoped := by
  cases clauses with
  | nil => exact ⟨rfl, rfl⟩
  | cons clause clauses => exact ⟨rfl, rfl⟩

/-- An error further on leaves the same on the heap. -/
theorem addClauses_shift (d : Draft) (n : Nat) (es : List Expr) (f : ReadFailure) :
    (d.addClauses (es.map .ok ++ [.error (f.shift n)])).2 =
      (d.addClauses (es.map .ok ++ [.error f])).2 := by
  rw [addClauses_append, addClauses_append]
  rfl

end Draft

/-- Results without errors are the same further on. -/
theorem map_mapError_ok {n : Nat} (es : List Expr) :
    (es.map (.ok : Expr → Except ReadFailure Expr)).map (Except.mapError (ReadFailure.shift n)) =
      es.map .ok := by
  rw [List.map_map]
  rfl

namespace Session

/-- A session without what was recorded in it. -/
def unrecorded (s : Session) : Session := { s with journal := none }

/-- Only what was added is taken over, and not the variables of the last clause. -/
theorem unrecorded_withDraft (s : Session) {d d₁ d₂ : Draft} (h : d₁.unscoped = d₂.unscoped)
    (j j₁ j₂ : Option (List Event)) :
    unrecorded { s.withDraft d₁ with journal := j₁ } =
      unrecorded { withDraft { s.withDraft d with journal := j } d₂ with journal := j₂ } := by
  show (s.withDraft d₁.unscoped).unrecorded = (s.withDraft d₂.unscoped).unrecorded
  rw [h]

/-- Reading the clauses of two texts with a line break between them comes to the same as reading those
of the first text and then those of the second one, if the first text can be read, its last token is a
full stop, and no comment is open at its end: the same store, atoms and names, and the terms of both
texts, or the error of the second text further on. -/
theorem parseAll_newline (s : Session) {text₁ : String} {cs : List Cell}
    (hread : (s.parseAll text₁).1 = .ok cs)
    (hstop : ∀ l, (LexemeStream.ofText text₁).getLast? = some (.ok l) → l.token.kind = .stop)
    (hopen : ¬ EndsInComment (Cursor.ofText text₁).items) (text₂ : String) :
    (s.parseAll (text₁ ++ "\n" ++ text₂)).1 =
        (((s.parseAll text₁).2.parseAll text₂).1.map (cs ++ ·)).mapError
          (ReadError.shift (utf8Length text₁.toList + 1)) ∧
      (s.parseAll (text₁ ++ "\n" ++ text₂)).2.unrecorded =
        ((s.parseAll text₁).2.parseAll text₂).2.unrecorded := by
  rcases all_ok_or_first_error ((s.ops.grammar text₁).clauses (.ofText text₁)) with
    ⟨es, hes⟩ | ⟨es, f, rest, hes⟩
  swap
  · rw [parseAll_of_error hes] at hread
    cases hread
  obtain ⟨cs', journal, hcs, hparse⟩ := parseAll_of_ok hes
  rw [hparse] at hread ⊢
  obtain rfl : cs' = cs := Except.ok.inj hread
  have hboth := Grammar.clauses_newline hes hstop hopen text₂
  let d := (s.draft.addClauses (es.map .ok)).2
  let s₁ : Session := { s.withDraft d with journal }
  have hdraft : s₁.draft = d.unscoped := rfl
  have hunscoped := d.addClauses_unscoped
  rcases all_ok_or_first_error ((s.ops.grammar text₂).clauses (.ofText text₂)) with
    ⟨es₂, hes₂⟩ | ⟨es₂, f, rest, hes₂⟩
  · rw [hes₂, map_mapError_ok, ← List.map_append] at hboth
    obtain ⟨cs₂, journal₂, hcs₂, hparse₂⟩ := parseAll_of_ok (s := s₁) hes₂
    obtain ⟨cs₃, journal₃, hcs₃, hparse₃⟩ := parseAll_of_ok hboth
    rw [hdraft, (hunscoped _).1] at hcs₂
    rw [List.map_append, Draft.addClauses_append, hcs, hcs₂, ← List.map_append] at hcs₃
    obtain rfl := map_ok_injective hcs₃
    rw [hparse₃, hparse₂]
    refine ⟨rfl, unrecorded_withDraft s ?_ _ _ _⟩
    rw [List.map_append, Draft.addClauses_append, hdraft, (hunscoped _).2]
  · -- the terms of the first text stay on the heap, and are not among the results
    rw [hes₂, List.map_append, map_mapError_ok, ← List.append_assoc, ← List.map_append] at hboth
    rw [parseAll_of_error hboth, parseAll_of_error (s := s₁) hes₂]
    refine ⟨rfl, unrecorded_withDraft s ?_ journal s.journal journal⟩
    show Draft.unscoped (s.draft.addClauses (_ ++ [.error (f.shift _)])).2 = _
    rw [Draft.addClauses_shift, List.map_append, List.append_assoc, Draft.addClauses_append, hdraft,
      (hunscoped _).2]

/-- Behind a clause with a comment, a text is read that has an error in its second clause. -/
theorem parseAll_newline_comment : (parseAll {} "p(X). % p").1 = .ok [.str 1] ∧
    (∀ l, (LexemeStream.ofText "p(X). % p").getLast? = some (.ok l) → l.token.kind = .stop) ∧
    ¬ EndsInComment (Cursor.ofText "p(X). % p").items ∧
    (parseAll {} ("p(X). % p" ++ "\n" ++ "q(X). r(")).1 =
        (((parseAll {} "p(X). % p").2.parseAll "q(X). r(").1.map ([.str 1] ++ ·)).mapError
          (ReadError.shift (utf8Length "p(X). % p".toList + 1)) ∧
      (parseAll {} ("p(X). % p" ++ "\n" ++ "q(X). r(")).2.unrecorded =
        ((parseAll {} "p(X). % p").2.parseAll "q(X). r(").2.unrecorded := by
  have hread : (parseAll {} "p(X). % p").1 = .ok [.str 1] := by decide +kernel
  have hstop : ∀ l, (LexemeStream.ofText "p(X). % p").getLast? = some (.ok l) →
      l.token.kind = .stop := by
    have hlast : (LexemeStream.ofText "p(X). % p").getLast? =
        some (.ok ⟨⟨.stop, ".", ⟨4, 5⟩, ⟨0, 4⟩⟩, false, true⟩) := by decide +kernel
    intro l hl
    rw [hlast] at hl
    cases hl
    rfl
  have hopen : ¬ EndsInComment (Cursor.ofText "p(X). % p").items := by
    have hlast : (Cursor.ofText "p(X). % p").items.getLast? =
        some (.ok ⟨.layout, " % p", ⟨5, 9⟩, ⟨0, 5⟩⟩, ⟨[], 9, ⟨0, 9⟩⟩) := by decide +kernel
    rintro ⟨t, k, depth, hitem, -, hmode⟩
    rw [hlast] at hitem
    cases hitem
    have hline : LayoutMode.behind .between " % p".toList = .line := by decide +kernel
    rw [hline] at hmode
    cases hmode
  exact ⟨hread, hstop, hopen, parseAll_newline {} hread hstop hopen _⟩

end Session

end PrologTerms
