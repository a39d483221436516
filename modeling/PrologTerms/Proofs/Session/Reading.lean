import PrologTerms.Proofs.Reading.Reader
import PrologTerms.Proofs.Session.Request

/-!
# What reading leads to

Reading a text takes over a draft to which its clauses have been added: all of them, or those up to the
first one with an error, which then is the result.
-/

namespace PrologTerms

/-! ## Results up to the first error -/

theorem untilFailures_of_all {α : Type} {failed : α → Bool} {as : List α}
    (h : ∀ a ∈ as, failed a = false) (n : Nat) : untilFailures failed (n + 1) as = as := by
  induction as with
  | nil => rfl
  | cons a as ih =>
    rw [untilFailures, h a List.mem_cons_self, if_neg (by decide),
      ih fun b hb => h b (List.mem_cons_of_mem a hb)]

section

variable {ε α : Type}

theorem untilFailures_map_ok (as : List α) :
    untilFailures (!·.isOk) 1 (as.map (.ok : α → Except ε α)) = as.map .ok := by
  refine untilFailures_of_all (fun r hr => ?_) 0
  obtain ⟨a, -, rfl⟩ := List.mem_map.1 hr
  rfl

theorem untilFailures_map_ok_append (as : List α) (e : ε) (rest : List (Except ε α)) :
    untilFailures (!·.isOk) 1 (as.map .ok ++ .error e :: rest) = as.map .ok ++ [.error e] := by
  induction as with
  | nil =>
    show Except.error e :: untilFailures _ 0 rest = _
    rw [untilFailures]
    rfl
  | cons a as ih => exact congrArg (Except.ok a :: ·) ih

theorem map_ok_injective : Function.Injective (List.map (.ok : α → Except ε α)) :=
  List.map_injective_iff.2 fun _ _ => Except.ok.inj

theorem mapM_id_ok (as : List α) : (as.map (.ok : α → Except ε α)).mapM id = .ok as := by
  induction as with
  | nil => rfl
  | cons a as ih =>
    rw [List.map_cons, List.mapM_cons, ih]
    rfl

theorem mapM_id_error (as : List α) (e : ε) (rest : List (Except ε α)) :
    (as.map (.ok : α → Except ε α) ++ .error e :: rest).mapM id = .error e := by
  induction as with
  | nil => rfl
  | cons a as ih =>
    rw [List.map_cons, List.cons_append, List.mapM_cons, ih]
    rfl

/-- Either there are no errors among some results, or one of them is the first one. -/
theorem all_ok_or_first_error (rs : List (Except ε α)) :
    (∃ as : List α, rs = as.map .ok) ∨
      ∃ (as : List α) (e : ε) (rest : _), rs = as.map .ok ++ .error e :: rest := by
  induction rs with
  | nil => exact .inl ⟨[], rfl⟩
  | cons r rs ih =>
    cases r with
    | error e => exact .inr ⟨[], e, rs, rfl⟩
    | ok a =>
      rcases ih with ⟨as, rfl⟩ | ⟨as, e, rest, rfl⟩
      · exact .inl ⟨a :: as, rfl⟩
      · exact .inr ⟨a :: as, e, rest, rfl⟩

end

/-! ## Adding clauses -/

namespace Draft

theorem addClauses_append (d : Draft) (as bs : List (Except ReadFailure Expr)) :
    d.addClauses (as ++ bs) = ((d.addClauses as).1 ++ ((d.addClauses as).2.addClauses bs).1,
      ((d.addClauses as).2.addClauses bs).2) := by
  induction as generalizing d with
  | nil => rfl
  | cons a as ih =>
    rw [List.cons_append, addClauses, addClauses]
    dsimp only
    rw [ih]
    rfl

/-- The terms of clauses without errors. -/
theorem exists_addClauses_ok (d : Draft) (es : List Expr) :
    ∃ cs : List Cell, (d.addClauses (es.map .ok)).1 = cs.map .ok := by
  induction es generalizing d with
  | nil => exact ⟨[], rfl⟩
  | cons e es ih =>
    obtain ⟨cs, hcs⟩ := ih (d.addClause (.ok e)).2
    exact ⟨_ :: cs, congrArg (Except.ok _ :: ·) hcs⟩

end Draft

namespace Session

variable {s : Session} {text : String}

/-! ## Reading one clause -/

theorem parse_of_none (h : (s.ops.grammar text).clause? (.ofText text) = none) :
    s.parse text = (.error (s.ops.grammar text).noClause, s) := by
  unfold parse
  simp only [h]

/-- Reading a clause puts its term on the heap. -/
theorem parse_of_ok {r : ReadResult} {e : Expr}
    (h : (s.ops.grammar text).clause? (.ofText text) = some r) (hv : r.value = .ok e) :
    ∃ journal, s.parse text =
      (.ok (s.draft.build e).1, { s.withDraft (s.draft.build e).2 with journal }) := by
  obtain ⟨j, hj⟩ := exists_noteParsed (s.withDraft (s.draft.build e).2) (s.draft.build e).1
  refine ⟨j, ?_⟩
  unfold parse
  simp only [h, hv, Draft.addClause]
  rw [← hj]
  rfl

theorem parse_of_error {r : ReadResult} {f : ReadFailure}
    (h : (s.ops.grammar text).clause? (.ofText text) = some r) (hv : r.value = .error f) :
    s.parse text = (.error f.error, s.withDraft (f.parts.foldl Draft.addFragment s.draft)) := by
  unfold parse
  simp only [h, hv, Draft.addClause]
  rfl

/-! ## Reading all clauses -/

/-- Reading clauses without errors puts all terms on the heap. -/
theorem parseAll_of_ok {es : List Expr}
    (h : (s.ops.grammar text).clauses (.ofText text) = es.map .ok) : ∃ (cs : List Cell) (journal : _),
      (s.draft.addClauses (es.map .ok)).1 = cs.map .ok ∧ s.parseAll text =
        (.ok cs, { s.withDraft (s.draft.addClauses (es.map .ok)).2 with journal }) := by
  obtain ⟨cs, hcs⟩ := s.draft.exists_addClauses_ok es
  obtain ⟨j, hj⟩ :=
    exists_foldl_noteParsed (s.withDraft (s.draft.addClauses (es.map .ok)).2) cs
  refine ⟨cs, j, hcs, ?_⟩
  unfold parseAll
  dsimp only
  rw [h, untilFailures_map_ok, hcs, mapM_id_ok]
  dsimp only
  rw [hj]

/-- An error ends the reading of clauses. -/
theorem parseAll_of_error {es : List Expr} {f : ReadFailure} {rest : List (Except ReadFailure Expr)}
    (h : (s.ops.grammar text).clauses (.ofText text) = es.map .ok ++ .error f :: rest) :
    s.parseAll text =
      (.error f.error, s.withDraft (s.draft.addClauses (es.map .ok ++ [.error f])).2) := by
  obtain ⟨cs, hcs⟩ := s.draft.exists_addClauses_ok es
  have hresults : (s.draft.addClauses (es.map .ok ++ [.error f])).1 =
      cs.map .ok ++ [.error f.error] := by
    rw [Draft.addClauses_append, hcs]
    rfl
  unfold parseAll
  dsimp only
  rw [h, untilFailures_map_ok_append, hresults, mapM_id_error]

/-! ## Readers -/

/-- Whatever becomes of it, reading a clause takes over what a reader of the text has put on the heap. -/
theorem exists_after_parse (s : Session) (text : String) : ∃ (n : Nat) (journal : _), (s.parse text).2 =
    { s.withDraft ((Reader.ofText text s.draft).after (s.ops.grammar text) n).draft with journal } := by
  cases hr : (s.ops.grammar text).clause? (.ofText text) with
  | none =>
    rw [parse_of_none hr]
    exact ⟨0, s.journal, rfl⟩
  | some r =>
    have hdraft : ((Reader.ofText text s.draft).after (s.ops.grammar text) 1).draft =
        (s.draft.addClause r.value).2 :=
      congrArg (·.2.draft) (Reader.read_of_some (r := .ofText text s.draft) hr)
    refine ⟨1, ?_⟩
    rw [hdraft]
    cases hv : r.value with
    | ok e =>
      obtain ⟨journal, hparse⟩ := parse_of_ok hr hv
      rw [hparse]
      exact ⟨journal, rfl⟩
    | error f =>
      rw [parse_of_error hr hv]
      exact ⟨s.journal, rfl⟩

/-- So does reading all clauses. -/
theorem exists_after_parseAll (s : Session) (text : String) : ∃ (n : Nat) (journal : _),
    (s.parseAll text).2 =
      { s.withDraft ((Reader.ofText text s.draft).after (s.ops.grammar text) n).draft with journal } := by
  have hdraft : ∀ front rest, (s.ops.grammar text).clauses (.ofText text) = front ++ rest →
      ∃ n, ((Reader.ofText text s.draft).after (s.ops.grammar text) n).draft =
        (s.draft.addClauses front).2 := by
    intro front rest h
    refine ⟨front.length, ?_⟩
    rw [Reader.draft_after, Reader.ofText, h, List.take_left]
  rcases all_ok_or_first_error ((s.ops.grammar text).clauses (.ofText text)) with
    ⟨es, hes⟩ | ⟨es, f, rest, hes⟩
  · obtain ⟨cs, journal, -, hparse⟩ := parseAll_of_ok hes
    obtain ⟨n, hn⟩ := hdraft (es.map .ok) [] (by rw [hes, List.append_nil])
    exact ⟨n, journal, by rw [hparse, hn]⟩
  · obtain ⟨n, hn⟩ := hdraft (es.map .ok ++ [.error f]) rest (by rw [hes, List.append_assoc]; rfl)
    refine ⟨n, s.journal, ?_⟩
    rw [parseAll_of_error hes, hn]
    rfl

end Session

end PrologTerms
