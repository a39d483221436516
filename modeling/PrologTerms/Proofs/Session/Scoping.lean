import PrologTerms.Proofs.Heap.Occurs
import PrologTerms.Proofs.Reading.Names
import PrologTerms.Proofs.Reading.Reader
import PrologTerms.Proofs.Reading.Sound
import PrologTerms.Proofs.Session.Appends

/-!
# Every clause has variables of its own

However many clauses and errors a reader has given before, the variables of the next clause are new: two
of them are the same exactly where the text has the same name, and no term that is there already has one
of them in it. The names in the clause are recorded for its variables, and no other names are.
-/

namespace PrologTerms

open Draft (NamedBy)

namespace Reader

/-- What has been read is in order. -/
structure Ready (r : Reader) : Prop where
  /-- So is what was put on the heap. -/
  sound : r.draft.Sound
  /-- All names are those of variables on the heap. -/
  below : r.draft.NamesBelow
  /-- The variables that are left to be read have names of variables. -/
  named : r.stream.VarNamed

variable {g : Grammar} {r : Reader} {c : Cell} {m n : Nat}

theorem ready_ofText {w : Workspace} (hw : w.Reachable) (text : String) :
    (ofText text w.session.draft).Ready :=
  ⟨Session.sound_draft hw.sound.session, hw.tidy.below, LexemeStream.varNamed_ofText text⟩

/-! ## From clause to clause -/

/-- Reading a clause only adds to what is there, and what it gives is a term. -/
theorem Ready.read (h : r.Ready) (g : Grammar) :
    (r.read g).2.Ready ∧ r.draft.Grows (r.read g).2.draft ∧ ∀ c, (r.read g).1 = some (.ok c) →
      (r.read g).2.draft.heap.IsTerm (r.read g).2.draft.atoms.size c := by
  cases hr : g.clause? r.stream with
  | none =>
    rw [read_of_none hr]
    exact ⟨h, .refl _, fun c hc => by cases hc⟩
  | some result =>
    rw [read_of_some hr]
    have hw := Grammar.wellFormed_clause? h.named hr
    obtain ⟨hleads, hterm⟩ := Draft.sound_addClause h.sound hw.value
    refine ⟨⟨hleads.1, ?_, hw.rest⟩, hleads.2, fun c hc => hterm c (Option.some.inj hc)⟩
    exact (r.draft.addsNames_addClause result.value).below h.below

theorem Ready.after (h : r.Ready) (g : Grammar) (n : Nat) : (r.after g n).Ready := by
  induction n with
  | zero => exact h
  | succ n ih =>
    rw [after_succ]
    exact (ih.read g).1

theorem Ready.grows_after (h : r.Ready) (g : Grammar) (hmn : m ≤ n) :
    (r.after g m).draft.Grows (r.after g n).draft := by
  induction n, hmn using Nat.le_induction with
  | base => exact .refl _
  | succ n _ ih =>
    rw [after_succ]
    exact ih.trans ((h.after g n).read g).2.1

/-- What was given earlier is a term by now. -/
theorem Ready.isTerm_earlier (h : r.Ready) (hmn : m < n)
    (hc : ((r.after g m).read g).1 = some (.ok c)) :
    (r.after g n).draft.heap.IsTerm (r.after g n).draft.atoms.size c := by
  have hterm := ((h.after g m).read g).2.2 c hc
  rw [← after_succ] at hterm
  exact (h.grows_after g hmn).isTerm hterm

/-! ## One clause -/

/-- Variables are the same exactly where the names are, and are new; they have the names that are
recorded. -/
theorem Ready.scoping (h : r.Ready) (hc : (r.read g).1 = some (.ok c)) : ∃ ls stop p t,
    r.stream = ls.map .ok ++ stop ∧ Grammar.EndsWith stop (r.read g).2.stream ∧
      (r.read g).2.draft.heap.resolve? (r.read g).2.draft.atoms c = some t ∧ g.ops.Derives ls p t ∧
      NamedBy (ls.filterMap Lexeme.varName?) t.vars ∧
      (∀ i ∈ t.vars, r.draft.heap.size ≤ i ∧
        (r.read g).2.draft.heap.get? i = some (.ref i)) ∧
      ∀ i s, (r.read g).2.draft.names.lookup i = some s ↔ r.draft.names.lookup i = some s ∨
        s ≠ "_" ∧ (s, i) ∈ (ls.filterMap Lexeme.varName?).zip t.vars := by
  have hready := (h.read g).1
  have hterm := (h.read g).2.2 c hc
  cases hr : g.clause? r.stream with
  | none =>
    rw [read_of_none hr] at hc
    cases hc
  | some result =>
    rw [read_of_some hr] at hc hready hterm ⊢
    have hval := (Grammar.wellFormed_clause? h.named hr).value
    cases hv : result.value with
    | error f =>
      rw [hv] at hc
      cases hc
    | ok e =>
      rw [hv] at hc hval hready hterm
      cases hc
      obtain ⟨ls, stop, p, hstream, hend, -, hfrom⟩ := Grammar.readFrom_clause? hr hv
      let d : Draft := { r.draft with scope := [] }
      have hd : d.Sound := ⟨h.sound.heap, h.sound.atoms, h.sound.names, by simp [d]⟩
      have hb := Draft.builds_build hd (Draft.scoped_of_nil rfl) e hval
      have hrec := Draft.records_build d e
      obtain ⟨t, ht, hdenotes, hassigns⟩ := hb.tree
      refine ⟨ls, stop, p, t, hstream, hend, ht, hfrom.derives _ t hdenotes, ?_⟩
      rw [← hfrom.names]
      refine ⟨hassigns.namedBy hb.scope, fun i hi => ⟨hassigns.size_le hb.fresh rfl hi, ?_⟩,
        fun i s => hrec.lookup_iff hassigns hb.scope h.below⟩
      exact Heap.Occurs.get? hready.sound.heap hterm (Heap.occurs_of_mem_vars ht hi)

end Reader

namespace Workspace

variable {w : Workspace}

/-- Every clause has variables of its own. Whatever the operators are, and however many clauses and
errors of a text were met before: if reading goes on with a clause that has a term, then two variables of
the clause are the same exactly where the text has the same name, and this is not `_`. All variables of
the clause are unbound, and were made for it: none of them occurs in a term that was handed out or in the
term of an earlier clause. Names are recorded for those variables that have one, and none are changed. -/
theorem variables_of_clause (hw : w.Reachable) (ops : OpTable) (text : String) {n : Nat}
    {r r' : Reader} {c : Cell}
    (hr : (Reader.ofText text w.session.draft).after (ops.grammar text) n = r)
    (hread : r.read (ops.grammar text) = (some (.ok c), r')) : ∃ ls stop p t,
      r.stream = ls.map .ok ++ stop ∧ Grammar.EndsWith stop r'.stream ∧
      r'.draft.heap.resolve? r'.draft.atoms c = some t ∧ ops.Derives ls p t ∧
      NamedBy (ls.filterMap Lexeme.varName?) t.vars ∧
      (∀ i ∈ t.vars, r.draft.heap.size ≤ i ∧ r'.draft.heap.get? i = some (.ref i) ∧
        ∀ e, e ∈ w.handles ∨ (∃ m < n, (((Reader.ofText text w.session.draft).after
          (ops.grammar text) m).read (ops.grammar text)).1 = some (.ok e)) →
            ¬ r'.draft.heap.Occurs i e) ∧
      ∀ i s, r'.draft.names.lookup i = some s ↔ r.draft.names.lookup i = some s ∨
        s ≠ "_" ∧ (s, i) ∈ (ls.filterMap Lexeme.varName?).zip t.vars := by
  have hstart := Reader.ready_ofText hw text
  have hready : r.Ready := hr ▸ hstart.after _ n
  have hgrows := (hready.read (ops.grammar text)).2.1
  have hscoping := hready.scoping (congrArg Prod.fst hread)
  rw [hread] at hgrows hscoping
  obtain ⟨ls, stop, p, t, hstream, hend, ht, hderives, hnamed, hnew, hnames⟩ := hscoping
  refine ⟨ls, stop, p, t, hstream, hend, ht, hderives, hnamed, fun i hi => ?_, hnames⟩
  obtain ⟨hle, hunbound⟩ := hnew i hi
  refine ⟨hle, hunbound, fun e he hoccurs => ?_⟩
  have hterm : r.draft.heap.IsTerm r.draft.atoms.size e := by
    subst hr
    rcases he with he | ⟨m, hm, he⟩
    · exact (hstart.grows_after _ (Nat.zero_le n)).isTerm (hw.sound.handles e he)
    · exact hstart.isTerm_earlier hm he
  exact Nat.not_lt_of_le hle (hgrows.heap.lt_size_of_occurs hready.sound.heap hterm hoccurs)

/-- The third attempt to read a clause, after two errors, the first of them behind a complete term with
variables. One name comes twice in the clause, and was met before, in the text and in an earlier one. -/
theorem variables_of_clause_third : ∃ w r r' t,
    blank.run? [.request (.parse "p(X)."), .request (.arg (.str 1) 0)] = some w ∧ w.Reachable ∧
    (Reader.ofText "q(X, Y) r. s(X, _, Y, X)." w.session.draft).after
      (OpTable.standard.grammar "q(X, Y) r. s(X, _, Y, X).") 2 = r ∧
    r.read (OpTable.standard.grammar "q(X, Y) r. s(X, _, Y, X).") = (some (.ok (.str 11)), r') ∧
    r'.draft.heap.resolve? r'.draft.atoms (.str 11) = some t ∧ t.vars = [8, 9, 10, 8] ∧
    (∀ i ∈ t.vars, ¬ r'.draft.heap.Occurs i (.str 1) ∧ ¬ r'.draft.heap.Occurs i (.ref 0)) ∧
    r'.draft.names.lookup 9 = none := by
  let text := "q(X, Y) r. s(X, _, Y, X)."
  let g := OpTable.standard.grammar text
  have hw : oneClause.Reachable := reachable_blank.run _ run?_oneClause
  let r := (Reader.ofText text oneClause.session.draft).after g 2
  have hread : r.read g = (some (.ok (.str 11)), (r.read g).2) := by
    have hok : (r.read g).1.bind Except.toOption = some (.str 11) := by decide +kernel
    obtain ⟨result, hresult, hok⟩ := Option.bind_eq_some_iff.1 hok
    cases result with
    | error e => cases hok
    | ok c =>
      cases hok
      exact Prod.ext hresult rfl
  let heap' : Heap := ⟨#[.ref 0, .con ⟨9, 1⟩, .ref 0, .ref 3, .ref 4, .con ⟨10, 2⟩, .ref 3, .ref 4,
    .ref 8, .ref 9, .ref 10, .con ⟨11, 4⟩, .ref 8, .ref 9, .ref 10, .ref 8]⟩
  have hheap : (r.read g).2.draft.heap = heap' := by decide +kernel
  obtain ⟨ls, stop, p, t, -, -, ht, -, -, hnew, -⟩ :=
    variables_of_clause hw OpTable.standard text rfl hread
  have hvars : t.vars = [8, 9, 10, 8] := by
    rw [hheap] at ht
    generalize (r.read g).2.draft.atoms = atoms at ht
    have htree : Heap.resolve? heap' atoms (.str 11) =
      some (.compound (atoms.name 11) [.var 8, .var 9, .var 10, .var 8]) := rfl
    rw [htree, Option.some.injEq] at ht
    rw [← ht]
    rfl
  refine ⟨oneClause, r, _, t, run?_oneClause, hw, rfl, hread, ht, hvars, fun i hi => ?_,
    by decide +kernel⟩
  obtain ⟨-, -, hold⟩ := hnew i hi
  exact ⟨hold _ (.inl (by decide)), hold _ (.inl (by decide))⟩

end Workspace

end PrologTerms
