import PrologTerms.Proofs.Reading.Shift
import PrologTerms.Proofs.Reading.Twin
import PrologTerms.Proofs.Session.Reading
import PrologTerms.Proofs.Session.Sound

/-!
# Reading does not depend on the session

Two sessions that find the same operators read every text in the same way, whatever else has happened
in them: either with the same error, or as terms that are the same but for the places of the new
variables.
-/

namespace PrologTerms

namespace Session

variable {s s' s₁ s₂ s₁' s₂' : Session}

/-! ## Names of variables -/

/-- An unbound variable has the name that was recorded for it. -/
theorem varName?_ref {i : Address} (h : s.heap.get? i = some (.ref i)) :
    s.varName? (.ref i) = some (s.names.lookup i) := by
  have hderef : s.heap.deref? (.ref i) = some (.ref i) := by
    simp only [Heap.deref?, Heap.derefWithin, h, if_pos]
  rw [varName?, hderef]
  rfl

/-- Reading a clause keeps all names those of variables on the heap. -/
theorem below_parse (h : s.names.Below s.heap.size) (text : String) :
    (s.parse text).2.names.Below (s.parse text).2.heap.size := by
  obtain ⟨n, journal, hparse⟩ := s.exists_after_parse text
  rw [hparse]
  exact (Reader.addsNames_after _ n (.ofText text s.draft)).below h

/-- So does reading all clauses. -/
theorem below_parseAll (h : s.names.Below s.heap.size) (text : String) :
    (s.parseAll text).2.names.Below (s.parseAll text).2.heap.size := by
  obtain ⟨n, journal, hparse⟩ := s.exists_after_parseAll text
  rw [hparse]
  exact (Reader.addsNames_after _ n (.ofText text s.draft)).below h

theorem below_answer? (hs : s.Sound) (h : s.names.Below s.heap.size) {r : Request} {cs : List Cell}
    (hr : ∀ c ∈ r.terms, s.heap.IsTerm s.atoms.size c) (hans : s.answer? r = some (cs, s')) :
    s'.names.Below s'.heap.size := by
  have hle : s.heap.size ≤ s'.heap.size := (answers_answer? hs hr hans).grows.size_le
  cases r with
  | parse text =>
    cases hans
    exact below_parse h text
  | parseAll text =>
    cases hans
    exact below_parseAll h text
  | int n =>
    simp only [answer?] at hans
    split at hans <;> cases hans
    exact h
  | deref c =>
    obtain ⟨d, -, e⟩ := Option.map_eq_some_iff.1 hans
    cases e
    exact h
  | arg c n =>
    obtain ⟨d, -, e⟩ := Option.map_eq_some_iff.1 hans
    cases e
    exact h
  | term name args =>
    cases hans
    have hnames : (s.newTerm name args).2.names = s.names := by
      unfold newTerm
      split <;> rfl
    exact hnames ▸ h.mono hle
  | _ =>
    cases hans
    exact h.mono hle

/-! ## Agreement -/

/-- The variables that were made on the way from one session to another one. -/
def newVars (s s' : Session) : Set Address := { i | s.heap.size ≤ i ∧ s'.heap.get? i = some (.ref i) }

/-- Terms that were made on the way from `s₁` to `s₁'` are those that were made on the way from `s₂` to
`s₂'`, but for the new variables, which `ρ` relates. -/
structure SameTerms (ρ : Address → Address) (s₁ s₁' s₂ s₂' : Session) (cs₁ cs₂ : List Cell) :
    Prop where
  /-- New variables are related one to one. -/
  bijective : Set.BijOn ρ (newVars s₁ s₁') (newVars s₂ s₂')
  /-- Related variables have the same name, or none. -/
  names : ∀ i ∈ newVars s₁ s₁', s₂'.varName? (.ref (ρ i)) = s₁'.varName? (.ref i)
  /-- The trees are the same, but for the new variables, and have no others. -/
  trees : List.Forall₂ (fun c₁ c₂ => ∃ t, s₁'.tree? c₁ = some t ∧ (∀ i ∈ t.vars, i ∈ newVars s₁ s₁') ∧
    s₂'.tree? c₂ = some (t.rename ρ)) cs₁ cs₂

/-- What was read in two sessions is the same: the same terms, but for the new variables, or the same
error. -/
def SameOutcome (s₁ s₂ : Session) :
    Except ReadError (List Cell) × Session → Except ReadError (List Cell) × Session → Prop
  | (.ok cs₁, s₁'), (.ok cs₂, s₂') => ∃ ρ, SameTerms ρ s₁ s₁' s₂ s₂' cs₁ cs₂
  | (.error e₁, _), (.error e₂, _) => e₁ = e₂
  | _, _ => False

/-- Drafts that were extended in the same way have the same terms. -/
theorem sameTerms_of_twins {d₁ d₂ : Draft} {cs₁ cs₂ : List Cell} (j₁ j₂ : Option (List Event))
    (h : Draft.Twins s₁.heap.size s₂.heap.size d₁ d₂)
    (hcs : List.Forall₂ (Draft.TwinTerms s₁.heap.size s₂.heap.size d₁ d₂) cs₁ cs₂) :
    SameTerms (carry s₁.heap.size s₂.heap.size) s₁ { s₁.withDraft d₁ with journal := j₁ } s₂
      { s₂.withDraft d₂ with journal := j₂ } cs₁ cs₂ := by
  refine ⟨⟨?_, ?_, ?_⟩, ?_, hcs.imp fun c₁ c₂ hc => hc.tree⟩
  · rintro i ⟨hi, hget⟩
    obtain ⟨k, rfl⟩ := Nat.exists_eq_add_of_le hi
    rw [carry_add]
    exact ⟨Nat.le_add_right _ k, (h.unbound k).1 hget⟩
  · rintro i ⟨hi, -⟩ j ⟨hj, -⟩ heq
    obtain ⟨k, rfl⟩ := Nat.exists_eq_add_of_le hi
    obtain ⟨m, rfl⟩ := Nat.exists_eq_add_of_le hj
    rw [carry_add, carry_add] at heq
    rw [Nat.add_left_cancel heq]
  · rintro j ⟨hj, hget⟩
    obtain ⟨k, rfl⟩ := Nat.exists_eq_add_of_le hj
    exact ⟨_, ⟨Nat.le_add_right _ k, (h.unbound k).2 hget⟩, carry_add _ _ k⟩
  · rintro i ⟨hi, hget⟩
    obtain ⟨k, rfl⟩ := Nat.exists_eq_add_of_le hi
    rw [carry_add]
    refine Eq.trans ?_ ((congrArg some (h.names k)).trans ?_)
    · exact varName?_ref (s := s₂.withDraft d₂) ((h.unbound k).1 hget)
    · exact (varName?_ref (s := s₁.withDraft d₁) hget).symm

/-- In order, and with names for variables on the heap only. -/
structure Tidy (s : Session) : Prop where
  /-- Everything is in order. -/
  sound : s.Sound
  /-- All names are those of variables on the heap. -/
  below : s.names.Below s.heap.size

/-- The terms of the same clauses are the same. -/
theorem sameTerms_addClauses (h₁ : s₁.Tidy) (h₂ : s₂.Tidy) {es : List Expr}
    (hes : ∀ e ∈ es, e.WellFormed) {cs₁ cs₂ : List Cell}
    (hcs₁ : (s₁.draft.addClauses (es.map .ok)).1 = cs₁.map .ok)
    (hcs₂ : (s₂.draft.addClauses (es.map .ok)).1 = cs₂.map .ok) (j₁ j₂ : Option (List Event)) :
    ∃ ρ, SameTerms ρ s₁ { s₁.withDraft (s₁.draft.addClauses (es.map .ok)).2 with journal := j₁ } s₂
      { s₂.withDraft (s₂.draft.addClauses (es.map .ok)).2 with journal := j₂ } cs₁ cs₂ := by
  have htwins : Draft.Twins s₁.heap.size s₂.heap.size s₁.draft s₂.draft :=
    Draft.twins_of_below (show s₁.draft.NamesBelow from h₁.below)
      (show s₂.draft.NamesBelow from h₂.below) rfl rfl
  obtain ⟨cs, cs', f, f', hadd, hadd', hf, hterms⟩ :=
    htwins.addClauses (sound_draft h₁.sound) (sound_draft h₂.sound) hes
  rw [hadd] at hcs₁ ⊢
  rw [hadd'] at hcs₂ ⊢
  obtain rfl := map_ok_injective hcs₁
  obtain rfl := map_ok_injective hcs₂
  exact ⟨_, sameTerms_of_twins j₁ j₂ hf hterms⟩

/-! ## Reading -/

/-- Grammars that find the same operators read a text as the same clauses. -/
theorem shifted_grammar (hops : ∀ name x, s₁.ops.find? name x = s₂.ops.find? name x)
    (text : String) : (s₁.ops.grammar text).Shifted 0 (s₂.ops.grammar text) :=
  ⟨fun name x => (hops name x).symm, rfl⟩

/-- The first clause of a text is read in the same way. -/
theorem sameOutcome_parse (h₁ : s₁.Tidy) (h₂ : s₂.Tidy)
    (hops : ∀ name x, s₁.ops.find? name x = s₂.ops.find? name x) (text : String) :
    SameOutcome s₁ s₂ ((s₁.parse text).1.map ([·]), (s₁.parse text).2)
      ((s₂.parse text).1.map ([·]), (s₂.parse text).2) := by
  -- the same operators give the same expression or error; the heap plays no part in it
  have hvalue := (shifted_grammar hops text).value_clause?
    (Eq.refl (LexemeStream.shift 0 (.ofText text)))
  cases hr₁ : (s₁.ops.grammar text).clause? (.ofText text) with
  | none =>
    cases hr₂ : (s₂.ops.grammar text).clause? (.ofText text) with
    | some r₂ => simp [hr₁, hr₂] at hvalue
    | none =>
      rw [parse_of_none hr₁, parse_of_none hr₂]
      exact rfl
  | some r₁ =>
    cases hr₂ : (s₂.ops.grammar text).clause? (.ofText text) with
    | none => simp [hr₁, hr₂] at hvalue
    | some r₂ =>
      rw [hr₁, hr₂, Option.map_some, Option.map_some, Option.some.injEq,
        Grammar.Shifted.mapError_shift_zero] at hvalue
      cases hv : r₁.value with
      | error f =>
        rw [parse_of_error hr₁ hv, parse_of_error hr₂ (hvalue.trans hv)]
        exact rfl
      | ok e =>
        obtain ⟨j₁, hparse₁⟩ := parse_of_ok hr₁ hv
        obtain ⟨j₂, hparse₂⟩ := parse_of_ok hr₂ (hvalue.trans hv)
        have he := (Grammar.wellFormed_clause? (LexemeStream.varNamed_ofText text) hr₁).value
        rw [hv] at he
        have hes : ∀ e' ∈ [e], e'.WellFormed := fun e' he' => List.mem_singleton.1 he' ▸ he
        rw [hparse₁, hparse₂]
        exact sameTerms_addClauses h₁ h₂ hes rfl rfl j₁ j₂

/-- So are all its clauses. -/
theorem sameOutcome_parseAll (h₁ : s₁.Tidy) (h₂ : s₂.Tidy)
    (hops : ∀ name x, s₁.ops.find? name x = s₂.ops.find? name x) (text : String) :
    SameOutcome s₁ s₂ (s₁.parseAll text) (s₂.parseAll text) := by
  have hclauses := (shifted_grammar hops text).clauses_of_shift
    (Eq.refl (LexemeStream.shift 0 (.ofText text)))
  rw [List.map_congr_left fun v _ => Grammar.Shifted.mapError_shift_zero v, List.map_id'] at hclauses
  rcases all_ok_or_first_error ((s₁.ops.grammar text).clauses (.ofText text)) with
    ⟨es, hes⟩ | ⟨es, f, rest, hes⟩
  · obtain ⟨cs₁, j₁, hcs₁, hparse₁⟩ := parseAll_of_ok hes
    obtain ⟨cs₂, j₂, hcs₂, hparse₂⟩ := parseAll_of_ok (hclauses.trans hes)
    rw [hparse₁, hparse₂]
    refine sameTerms_addClauses h₁ h₂ (fun e he => ?_) hcs₁ hcs₂ j₁ j₂
    have hmem : .ok e ∈ (s₁.ops.grammar text).clauses (.ofText text) := by
      rw [hes]
      exact List.mem_map_of_mem he
    exact Grammar.wellFormed_of_mem_clauses (LexemeStream.varNamed_ofText text) _ hmem
  · rw [parseAll_of_error hes, parseAll_of_error (hclauses.trans hes)]
    exact rfl

end Session

namespace Workspace

variable {w w₁ w₂ : Workspace}

/-- Every reachable session is in order, and has names for variables on the heap only. -/
theorem Reachable.tidy (hw : w.Reachable) : w.session.Tidy := by
  refine ⟨hw.sound.session, ?_⟩
  induction hw with
  | new h =>
    obtain ⟨ops, journal, -, rfl⟩ := h
    exact fun p hp => by cases hp
  | @step w w' a hw h ih =>
    have hsize := (size_heap_perform? hw.sound h).1
    rcases request_or_store_of_perform? h with ⟨r, cs, s, hr, hans, rfl⟩ | ⟨store, journal, opened, rfl⟩
    · exact Session.below_answer? hw.sound.session ih (fun c hc => hw.sound.handles c (hr c hc)) hans
    · exact ih.mono hsize

/-- In two sessions that find the same operators, whatever else has happened in them, every text is read
in the same way, both its first clause and all its clauses: as terms that have the same trees, up to a
one-to-one relation between the new variables that keeps their names, or with the same error. -/
theorem sameOutcome_of_ops (h₁ : w₁.Reachable) (h₂ : w₂.Reachable)
    (hops : ∀ name x, w₁.session.ops.find? name x = w₂.session.ops.find? name x) (text : String) :
    Session.SameOutcome w₁.session w₂.session
        ((w₁.session.parse text).1.map ([·]), (w₁.session.parse text).2)
        ((w₂.session.parse text).1.map ([·]), (w₂.session.parse text).2) ∧
      Session.SameOutcome w₁.session w₂.session (w₁.session.parseAll text)
        (w₂.session.parseAll text) :=
  ⟨Session.sameOutcome_parse h₁.tidy h₂.tidy hops text,
    Session.sameOutcome_parseAll h₁.tidy h₂.tidy hops text⟩

/-- A new session reads two clauses in the same way as a session in which a clause was read and its
variable was bound in an open transaction. -/
theorem sameOutcome_of_ops_bound : ∃ w, blank.run? [.request (.parse "p(X, b)"),
      .request (.arg (.str 1) 0), .begin, .request (.atom "q"), .unify (.ref 0) (.con ⟨11, 0⟩)] = some w ∧
    (∀ name x, blank.session.ops.find? name x = w.session.ops.find? name x) ∧
      Session.SameOutcome blank.session w.session
          ((blank.session.parse "q(X, Y, X). p(X).").1.map ([·]),
            (blank.session.parse "q(X, Y, X). p(X).").2)
          ((w.session.parse "q(X, Y, X). p(X).").1.map ([·]), (w.session.parse "q(X, Y, X). p(X).").2) ∧
        Session.SameOutcome blank.session w.session (blank.session.parseAll "q(X, Y, X). p(X).")
          (w.session.parseAll "q(X, Y, X). p(X).") := by
  have hops : (blank.run? [.request (.parse "p(X, b)"), .request (.arg (.str 1) 0), .begin,
      .request (.atom "q"), .unify (.ref 0) (.con ⟨11, 0⟩)]).map (·.session.ops) =
        some OpTable.standard := by
    decide +kernel
  obtain ⟨w, hrun, hw⟩ := Option.map_eq_some_iff.1 hops
  have hops : ∀ name x, blank.session.ops.find? name x = w.session.ops.find? name x := by
    rw [hw]
    exact fun _ _ => rfl
  exact ⟨w, hrun, hops, sameOutcome_of_ops reachable_blank (reachable_blank.run _ hrun) hops _⟩

end Workspace

end PrologTerms
