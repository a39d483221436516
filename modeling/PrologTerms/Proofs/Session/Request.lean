import PrologTerms.Proofs.Reading.Draft
import PrologTerms.Proofs.Session.Workspace
import PrologTerms.Proofs.Store.Sound

/-!
# What requests do to a session

A request adds slots to the heap and atoms to the table, hands out terms, and touches nothing else:
no slot is overwritten, and trail, pending pairs and boundary are left alone, whether or not a text
could be read.
-/

namespace PrologTerms

namespace Session

/-- A session in which everything is in order. -/
structure Sound (s : Session) : Prop where
  /-- The heap is well-formed, and the trail has only variables. -/
  store : s.store.Sound s.atoms.size
  /-- No pairs of terms are waiting to be unified. -/
  pending : s.store.pending = []
  /-- The table of atoms is well-formed. -/
  atoms : s.atoms.WellFormed
  /-- Variables have names of variables. -/
  names : s.names.WellFormed

/-- The session `s'` has come from `s` by handing out the terms `cs`. -/
structure Answers (s : Session) (cs : List Cell) (s' : Session) : Prop where
  /-- Everything is in order. -/
  sound : s'.Sound
  /-- Slots are added, and nothing else is done to the store. -/
  store : s'.store = { s.store with heap := s'.heap }
  /-- No slot is overwritten. -/
  grows : s.heap.Grows s'.heap
  /-- Atoms are added. -/
  atoms : s.atoms.Extends s'.atoms
  /-- Terms are handed out. -/
  terms : ∀ c ∈ cs, s'.heap.IsTerm s'.atoms.size c

variable {s s' : Session}

theorem sound_new {w : Workspace} (h : w.IsNew) : w.session.Sound := by
  obtain ⟨ops, journal, -, rfl⟩ := h
  have hv : Heap.AreVars {} [] := fun i hi => by cases hi
  exact ⟨⟨Heap.wellFormed_empty, hv, by simp⟩, rfl, AtomTable.wellFormed_fresh,
    fun p hp => by cases hp⟩

/-- Handing out what is there already. -/
theorem Sound.answers (hs : s.Sound) {cs : List Cell}
    (hc : ∀ c ∈ cs, s.heap.IsTerm s.atoms.size c) : s.Answers cs s :=
  ⟨hs, rfl, .refl _, .refl _, hc⟩

theorem Sound.answers_one (hs : s.Sound) {c : Cell} (hc : s.heap.IsTerm s.atoms.size c) :
    s.Answers [c] s :=
  hs.answers fun _ hd => List.mem_singleton.1 hd ▸ hc

/-! ## Recording events -/

theorem exists_noteParsed (s : Session) (c : Cell) :
    ∃ journal, s.noteParsed c = { s with journal } := by
  unfold noteParsed
  split
  · exact ⟨s.journal, rfl⟩
  · exact ⟨_, rfl⟩

theorem exists_foldl_noteParsed (s : Session) (cs : List Cell) :
    ∃ journal, cs.foldl noteParsed s = { s with journal } := by
  induction cs generalizing s with
  | nil => exact ⟨s.journal, rfl⟩
  | cons c cs ih =>
    obtain ⟨j, hj⟩ := exists_noteParsed s c
    obtain ⟨j', hj'⟩ := ih { s with journal := j }
    exact ⟨j', by rw [List.foldl_cons, hj, hj']⟩

/-- What is recorded changes nothing else. -/
theorem Answers.with_journal {cs : List Cell} (h : s.Answers cs s') (journal : Option (List Event)) :
    s.Answers cs { s' with journal } where
  sound := ⟨h.sound.store, h.sound.pending, h.sound.atoms, h.sound.names⟩
  store := h.store
  grows := h.grows
  atoms := h.atoms
  terms := h.terms

/-! ## Making terms -/

/-- Adding slots and atoms, with everything else as it was. -/
theorem Sound.extend (hs : s.Sound) {heap : Heap} {atoms : AtomTable} {names : SourceNames}
    {cs : List Cell} (hw : heap.WellFormed atoms.size) (hg : s.heap.Grows heap)
    (ha : atoms.WellFormed) (hx : s.atoms.Extends atoms) (hn : names.WellFormed)
    (hc : ∀ c ∈ cs, heap.IsTerm atoms.size c) :
    s.Answers cs { s with store := { s.store with heap }, atoms, names } where
  sound := ⟨⟨hw, hs.store.trail.mono hg.keeps, fun p hp => by
    have e : p ∈ s.store.pending := hp
    rw [hs.pending] at e
    cases e⟩, hs.pending, ha, hn⟩
  store := rfl
  grows := hg
  atoms := hx
  terms := hc

theorem answers_newVar (hs : s.Sound) : s.Answers [s.newVar.1] s.newVar.2 := by
  obtain ⟨hw, ht, hg⟩ := Heap.isTerm_newVar hs.store.heap
  refine hs.extend hw hg hs.atoms (.refl _) hs.names fun c hc => ?_
  rw [List.mem_singleton.1 hc]
  exact ht

theorem answers_functor (hs : s.Sound) (name : String) (arity : Nat) :
    s.Answers [] (s.functor name arity).2 ∧
      (s.functor name arity).1.name < (s.functor name arity).2.atoms.size := by
  obtain ⟨hw, hx, hlt, -⟩ := AtomTable.intern_spec hs.atoms name
  refine ⟨hs.extend (hs.store.heap.mono_atoms hx.size_le) (.refl _) hw hx hs.names ?_, hlt⟩
  intro c hc
  cases hc

theorem answers_newAtom (hs : s.Sound) (name : String) :
    s.Answers [(s.newAtom name).1] (s.newAtom name).2 := by
  obtain ⟨h, hlt⟩ := answers_functor hs name 0
  refine ⟨h.sound, h.store, h.grows, h.atoms, fun c hc => ?_⟩
  rw [List.mem_singleton.1 hc]
  exact ⟨rfl, hlt⟩

theorem answers_newTerm (hs : s.Sound) (name : String) {args : List Cell}
    (ha : ∀ c ∈ args, s.heap.IsTerm s.atoms.size c) :
    s.Answers [(s.newTerm name args).1] (s.newTerm name args).2 := by
  unfold newTerm
  split
  · exact answers_newAtom hs name
  · next hne =>
    obtain ⟨h, hlt⟩ := answers_functor hs name args.length
    have hpos : 0 < args.length := List.length_pos_iff.2 fun e => hne (by simp [e])
    obtain ⟨hw, ht, hg⟩ := Heap.isTerm_newCompound h.sound.store.heap
      (s.functor name args.length).1 args hlt rfl hpos
      fun c hc => (ha c hc).mono h.grows.keeps h.atoms.size_le
    refine hs.extend hw hg h.sound.atoms h.atoms hs.names fun c hc => ?_
    rw [List.mem_singleton.1 hc]
    exact ht

theorem answers_newList (hs : s.Sound) {items : List Cell} {tail : Cell}
    (hi : ∀ c ∈ items, s.heap.IsTerm s.atoms.size c) (ht : s.heap.IsTerm s.atoms.size tail) :
    s.Answers [(s.newList items tail).1] (s.newList items tail).2 := by
  obtain ⟨hw, hc, hg⟩ := Heap.isTerm_newList hs.store.heap (hs.atoms.pinned_lt (by decide)) hi ht
  refine hs.extend hw hg hs.atoms (.refl _) hs.names fun c hc' => ?_
  rw [List.mem_singleton.1 hc']
  exact hc

/-! ## Reading texts -/

theorem sound_draft (hs : s.Sound) : s.draft.Sound :=
  ⟨hs.store.heap, hs.atoms, hs.names, fun _ hp => by cases hp⟩

/-- Taking over what was put on the heap while a text was read. -/
theorem answers_withDraft (hs : s.Sound) {d : Draft} (h : s.draft.Leads d) (cs : List Cell)
    (hc : ∀ c ∈ cs, d.heap.IsTerm d.atoms.size c) : s.Answers cs (s.withDraft d) :=
  hs.extend h.1.heap h.2.heap h.1.atoms h.2.atoms h.1.names hc

/-- Reading a clause hands out its term, or adds what was complete of it. -/
theorem answers_parse (hs : s.Sound) (text : String) :
    s.Answers (s.parse text).1.toOption.toList (s.parse text).2 := by
  unfold parse
  dsimp only
  split
  · exact hs.answers fun c hc => by cases hc
  · next r hr =>
    have hv := (Grammar.wellFormed_clause? (LexemeStream.varNamed_ofText text) hr).value
    obtain ⟨hl, ht⟩ := Draft.sound_addClause (sound_draft hs) hv
    generalize s.draft.addClause r.value = q at hl ht
    obtain ⟨c, d⟩ := q
    cases c with
    | ok c =>
      obtain ⟨j, hj⟩ := exists_noteParsed (s.withDraft d) c
      have h := answers_withDraft hs hl [c] fun c' hc' => by
        rw [List.mem_singleton.1 hc']
        exact ht c rfl
      have h' := h.with_journal j
      rw [← hj] at h'
      exact h'
    | error e => exact answers_withDraft hs hl [] fun c hc => by cases hc

theorem mem_of_mapM_id {cs : List (Except ReadError Cell)} {ds : List Cell}
    (h : cs.mapM id = .ok ds) : ∀ d ∈ ds, .ok d ∈ cs := by
  induction cs generalizing ds with
  | nil => cases h; simp
  | cons c cs ih =>
    rw [List.mapM_cons] at h
    cases c with
    | error e => cases h
    | ok c =>
      cases e : cs.mapM id with
      | error err => rw [e] at h; cases h
      | ok ds' =>
        rw [e] at h
        cases h
        intro d hd
        rcases List.mem_cons.1 hd with rfl | hd
        · exact List.mem_cons_self
        · exact List.mem_cons_of_mem _ (ih e d hd)

theorem mem_of_mem_untilFailures {α : Type} {failed : α → Bool} {n : Nat} {as : List α} {a : α}
    (h : a ∈ untilFailures failed n as) : a ∈ as := by
  fun_induction untilFailures failed n as with
  | case1 => cases h
  | case2 => cases h
  | case3 n b bs ih₁ ih₂ =>
    rcases List.mem_cons.1 h with rfl | h
    · exact List.mem_cons_self
    · split at h
      · exact List.mem_cons_of_mem b (ih₁ h)
      · exact List.mem_cons_of_mem b (ih₂ h)

/-- Reading several clauses hands out their terms, or adds what was complete of them. -/
theorem answers_parseAll (hs : s.Sound) (text : String) :
    s.Answers ((s.parseAll text).1.toOption.getD []) (s.parseAll text).2 := by
  unfold parseAll
  dsimp only
  have hv := Grammar.wellFormed_of_mem_clauses (g := s.ops.grammar text)
    (LexemeStream.varNamed_ofText text)
  generalize (s.ops.grammar text).clauses (LexemeStream.ofText text) = clauses at hv
  obtain ⟨hl, ht⟩ := Draft.sound_addClauses (sound_draft hs)
    (untilFailures (!·.isOk) 1 clauses) fun c hc => hv c (mem_of_mem_untilFailures hc)
  generalize s.draft.addClauses (untilFailures (!·.isOk) 1 clauses) = q at hl ht
  obtain ⟨cs, d⟩ := q
  simp only at hl ht ⊢
  split
  · next ds hds =>
    obtain ⟨j, hj⟩ := exists_foldl_noteParsed (s.withDraft d) ds
    have h := answers_withDraft hs hl ds fun c hc => ht c (mem_of_mapM_id hds c hc)
    have h' := h.with_journal j
    rw [← hj] at h'
    exact h'
  · exact answers_withDraft hs hl [] fun c hc => by cases hc

/-! ## All requests -/

/-- A request about terms is answered with terms, and touches nothing that was there before. -/
theorem answers_answer? (hs : s.Sound) {r : Request} {cs : List Cell}
    (hr : ∀ c ∈ r.terms, s.heap.IsTerm s.atoms.size c) (h : s.answer? r = some (cs, s')) :
    s.Answers cs s' := by
  cases r with
  | var => cases h; exact answers_newVar hs
  | atom name => cases h; exact answers_newAtom hs name
  | int n =>
    simp only [answer?] at h
    split at h
    · next hf =>
      cases h
      exact hs.answers_one hf
    · cases h
  | big n => cases h; exact hs.answers_one trivial
  | global n => cases h; exact hs.answers_one trivial
  | nil =>
    cases h
    exact hs.answers_one ⟨rfl, hs.atoms.pinned_lt (by decide)⟩
  | term name args => cases h; exact answers_newTerm hs name hr
  | list items tail =>
    cases h
    exact answers_newList hs (fun c hc => hr c (List.mem_cons_of_mem tail hc))
      (hr tail List.mem_cons_self)
  | functor name arity => cases h; exact (answers_functor hs name arity).1
  | deref c =>
    obtain ⟨d, hd, e⟩ := Option.map_eq_some_iff.1 h
    cases e
    obtain ⟨d', hd', ht, -⟩ := Heap.exists_deref? hs.store.heap (hr c List.mem_cons_self)
    have e : s.heap.deref? c = some d' := hd'
    rw [hd, Option.some.injEq] at e
    exact hs.answers_one (e ▸ ht)
  | arg c n =>
    obtain ⟨d, hd, e⟩ := Option.map_eq_some_iff.1 h
    cases e
    exact hs.answers_one (Heap.isTerm_of_arg? hs.store.heap (hr c List.mem_cons_self) hd)
  | parse text => cases h; exact answers_parse hs text
  | parseAll text => cases h; exact answers_parseAll hs text
  | addOp name priority cls =>
    cases h
    exact ⟨⟨hs.store, hs.pending, hs.atoms, hs.names⟩, rfl, .refl _, .refl _, by simp⟩

end Session

end PrologTerms
