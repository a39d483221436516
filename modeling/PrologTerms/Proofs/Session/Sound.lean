import PrologTerms.Proofs.AtomTable
import PrologTerms.Proofs.OperatorTable
import PrologTerms.Proofs.Session.Request
import PrologTerms.Proofs.Store.Undo

/-!
# Every reachable session is in order

One invariant is kept by everything that can be done to a session: by making terms and reading texts,
also with errors, by unifying, also without success, by committing and rolling back, and by undoing
and forgetting bindings by hand. A term stays a term forever, also behind a rollback.
-/

namespace PrologTerms

namespace Session

/-- The session `s'` is in order, and has come from `s`, where it was in order already. -/
structure Moves (s s' : Session) : Prop where
  /-- Everything is in order. -/
  sound : s'.Sound
  /-- Terms stay terms. -/
  heap : s.heap.Keeps s'.heap
  /-- Atoms keep their names. -/
  atoms : s.atoms.Extends s'.atoms

variable {s s' : Session}

theorem Moves.isTerm (h : s.Moves s') {c : Cell} (hc : s.heap.IsTerm s.atoms.size c) :
    s'.heap.IsTerm s'.atoms.size c :=
  hc.mono h.heap h.atoms.size_le

theorem Answers.moves {cs : List Cell} (h : s.Answers cs s') : s.Moves s' :=
  ⟨h.sound, h.grows.keeps, h.atoms⟩

theorem Sound.refl (hs : s.Sound) : s.Moves s := ⟨hs, .refl _, .refl _⟩

/-- Changing the store only, and recording events. -/
theorem Sound.moves (hs : s.Sound) {store : Store} (journal : Option (List Event))
    (h : store.Sound s.atoms.size) (hk : s.heap.Keeps store.heap) (hp : store.pending = []) :
    s.Moves { s with store, journal } :=
  ⟨⟨h, hp, hs.atoms, hs.names⟩, hk, .refl _⟩

theorem moves_openTransaction (hs : s.Sound) : s.Moves s.openTransaction.2 :=
  hs.moves s.journal hs.store.openTransaction (.refl _) hs.pending

theorem moves_commit (hs : s.Sound) (cp : Checkpoint) : s.Moves (s.commit cp) :=
  hs.moves s.journal (hs.store.commit cp) (.refl _) hs.pending

theorem moves_trim (hs : s.Sound) (depth : Nat) : s.Moves (s.trim depth) :=
  hs.moves s.journal (hs.store.trim depth) (.refl _) hs.pending

theorem moves_unwind? (hs : s.Sound) {start stop : Nat} (h : s.unwind? start stop = some s') :
    s.Moves s' := by
  obtain ⟨t, ht, e⟩ := Option.map_eq_some_iff.1 h
  cases e
  obtain ⟨hst, hk⟩ := hs.store.unwind ht
  refine hs.moves s.journal hst hk ?_
  obtain ⟨heap, -, e⟩ := Option.map_eq_some_iff.1 ht
  cases e
  exact hs.pending

theorem moves_rollback? (hs : s.Sound) {cp : Checkpoint} (h : s.rollback? cp = some s') :
    s.Moves s' := by
  unfold rollback? at h
  split at h
  · cases h
    obtain ⟨hr, hk⟩ := hs.store.rollback cp
    refine hs.moves _ hr hk ?_
    simp only [Store.rollback, hs.pending, List.drop_nil]
  · cases h

namespace Attempt

/-- The session behind an attempt. -/
def session : Attempt → Session
  | .success _ s => s
  | .failure _ s => s

end Attempt

/-- An attempt to unify leaves everything in order. If it fails, for whatever reason, the store is as
before; otherwise all bindings are on the trail, and the transaction is still open. -/
theorem moves_tryUnify? (hs : s.Sound) {a b : Cell} (ha : s.heap.IsTerm s.atoms.size a)
    (hb : s.heap.IsTerm s.atoms.size b) {t : Attempt} (h : s.tryUnify? a b = some t) :
    s.Moves t.session ∧ match t with
      | .success cp s' => cp = s.store.openTransaction.1 ∧
          ∀ old base, s.store.Covers old base → s'.store.Covers old base
      | .failure _ s' => s'.store = s.store := by
  obtain ⟨u, hu, e⟩ := Option.map_eq_some_iff.1 h
  obtain ⟨h₁, h₂, -, h₄⟩ := Store.sound_tryUnify? hs.store ha hb hu
  have hspec := Store.tryUnify?_spec hs.store ha hb hu
  have h₅ := h₄.trans hs.pending
  cases u with
  | success cp store =>
    cases e
    exact ⟨hs.moves s.journal h₁ h₂ h₅, hspec⟩
  | failure v undone store =>
    cases e
    exact ⟨hs.moves _ h₁ h₂ h₅, hspec⟩

/-- Unifying leaves everything in order. If it fails, for whatever reason, the store is as before;
otherwise all bindings are on the trail. -/
theorem moves_unify? (hs : s.Sound) {a b : Cell} (ha : s.heap.IsTerm s.atoms.size a)
    (hb : s.heap.IsTerm s.atoms.size b) {v : Verdict} (h : s.unify? a b = some (v, s')) :
    s.Moves s' ∧ (v ≠ .unified → s'.store = s.store) ∧
      ∀ old base, s.store.Covers old base → s'.store.Covers old base := by
  obtain ⟨t, ht, e⟩ := Option.map_eq_some_iff.1 h
  obtain ⟨hm, hspec⟩ := moves_tryUnify? hs ha hb ht
  cases t with
  | success cp s₁ =>
    cases e
    have hc := moves_commit hm.sound cp
    exact ⟨⟨hc.sound, hm.heap.trans hc.heap, hm.atoms.trans hc.atoms⟩, fun hv => absurd rfl hv,
      hspec.2⟩
  | failure v s₁ =>
    cases e
    exact ⟨hm, fun _ => hspec, fun old base hcov => by rwa [hspec]⟩

end Session

namespace Workspace

/-- The session is in order, and all terms handed out are terms. -/
structure Sound (w : Workspace) : Prop where
  /-- The session is in order. -/
  session : w.session.Sound
  /-- What was handed out is terms. -/
  handles : ∀ c ∈ w.handles, w.heap.IsTerm w.session.atoms.size c

variable {w w' : Workspace}

/-- Everything is in order if the session is, and no terms have been handed out. -/
theorem Sound.move (hw : w.Sound) (hm : w.session.Moves w'.session)
    (hh : w'.handles = w.handles) : w'.Sound :=
  ⟨hm.sound, fun c hc => hm.isTerm (hw.handles c (hh ▸ hc))⟩

/-- What an action does to a workspace. -/
inductive Effect (w : Workspace) : Action → Workspace → Prop
  /-- A request is answered. -/
  | answered {r : Request} {cs : List Cell} {s : Session} (h : w.session.Answers cs s) :
      Effect w (.request r) (w.advance cs s)
  /-- Variables are bound, and a transaction may have been opened before. -/
  | bound {a : Action} {s : Session} {opened : List Checkpoint} (hm : w.session.Moves s)
      (hc : ∀ old base, w.store.Covers old base → s.store.Covers old base)
      (ho : opened = w.opened ∨ opened = w.store.openTransaction.1 :: w.opened) :
      Effect w a { w with session := s, opened }
  /-- The innermost transaction is closed, and its bindings are kept. -/
  | committed {cp : Checkpoint} {opened : List Checkpoint} (ho : w.opened = cp :: opened) :
      Effect w .commit { w with session := w.session.commit cp, opened }
  /-- The innermost transaction is closed, and its bindings are undone, if they can be. -/
  | rolledBack {cp : Checkpoint} {opened : List Checkpoint} (ho : w.opened = cp :: opened)
      (hm : w.session.Moves ((w.session.rollback? cp).getD w.session)) :
      Effect w .rollback { w with session := (w.session.rollback? cp).getD w.session, opened }
  /-- Someone tampers with the trail. -/
  | manual {a : Action} {s : Session} (ha : a.isManual = true) (hm : w.session.Moves s)
      (hs : s.heap.size = w.heap.size) : Effect w a { w with session := s }

theorem size_unwind? {s s' : Store} {start stop : Nat} (h : s.unwind? start stop = some s') :
    s'.heap.size = s.heap.size := by
  obtain ⟨heap, hh, rfl⟩ := Option.map_eq_some_iff.1 h
  unfold Trail.unwind? at hh
  dsimp only at hh
  split at hh
  · cases hh
    exact Heap.size_release s.heap _
  · cases hh

/-- Every action has one of the effects. -/
theorem effect_perform? (hw : w.Sound) {a : Action} (h : w.perform? a = some w') :
    w.Effect a w' := by
  cases a with
  | request r =>
    simp only [perform?] at h
    split at h
    · next hr =>
      obtain ⟨⟨cs, s⟩, hans, rfl⟩ := Option.map_eq_some_iff.1 h
      exact .answered (Session.answers_answer? hw.session (fun c hc => hw.handles c (hr c hc)) hans)
    · cases h
  | unify a b =>
    simp only [perform?] at h
    split at h
    · next hab =>
      obtain ⟨⟨v, s⟩, hu, rfl⟩ := Option.map_eq_some_iff.1 h
      obtain ⟨hm, -, hc⟩ :=
        Session.moves_unify? hw.session (hw.handles a hab.1) (hw.handles b hab.2) hu
      exact .bound hm hc (.inl rfl)
    · cases h
  | tryUnify a b =>
    simp only [perform?] at h
    split at h
    · next hab =>
      obtain ⟨t, hu, e⟩ := Option.map_eq_some_iff.1 h
      obtain ⟨hm, hspec⟩ :=
        Session.moves_tryUnify? hw.session (hw.handles a hab.1) (hw.handles b hab.2) hu
      cases t with
      | success cp s =>
        cases e
        exact .bound hm hspec.2 (.inr (by rw [hspec.1]; rfl))
      | failure v s =>
        cases e
        refine .bound hm (fun old base hc => ?_) (.inl rfl)
        rw [hspec]
        exact hc
    · cases h
  | begin =>
    cases h
    exact .bound (Session.moves_openTransaction hw.session) (fun _ _ hc => hc) (.inr rfl)
  | commit =>
    simp only [perform?] at h
    split at h
    · cases h
    · next ho =>
      cases h
      exact .committed ho
  | rollback =>
    simp only [perform?] at h
    split at h
    · cases h
    · next cp opened ho =>
      cases h
      refine .rolledBack ho ?_
      cases e : w.session.rollback? cp with
      | none => exact hw.session.refl
      | some s => exact Session.moves_rollback? hw.session e
  | unwind start stop =>
    obtain ⟨s, hs, rfl⟩ := Option.map_eq_some_iff.1 h
    refine .manual rfl (Session.moves_unwind? hw.session hs) ?_
    obtain ⟨store, hst, rfl⟩ := Option.map_eq_some_iff.1 hs
    exact size_unwind? hst
  | trim depth =>
    cases h
    exact .manual rfl (Session.moves_trim hw.session depth) rfl

/-- Every action keeps everything in order. -/
theorem sound_perform? (hw : w.Sound) {a : Action} (h : w.perform? a = some w') : w'.Sound := by
  have he := effect_perform? hw h
  cases he with
  | answered ha =>
    refine ⟨ha.sound, fun c hc => ?_⟩
    rcases List.mem_append.1 hc with hc | hc
    · exact ha.terms c hc
    · exact ha.moves.isTerm (hw.handles c hc)
  | bound hm hc ho => exact hw.move hm rfl
  | committed ho => exact hw.move (Session.moves_commit hw.session _) rfl
  | rolledBack ho hm => exact hw.move hm rfl
  | manual ha hm hs => exact hw.move hm rfl

/-- An action never removes a slot, and only a request adds some. -/
theorem size_heap_perform? (hw : w.Sound) {a : Action} (h : w.perform? a = some w') :
    w.heap.size ≤ w'.heap.size ∧ (w.born.size = w.heap.size → w'.born.size = w'.heap.size) := by
  have he := effect_perform? hw h
  cases he with
  | @answered r cs s ha =>
    have hle : w.heap.size ≤ s.heap.size := ha.grows.size_le
    refine ⟨hle, fun hb => ?_⟩
    simp only [advance, Arena.size_append, List.length_drop, Arena.length_toList]
    simp only [heap] at hb hle ⊢
    omega
  | bound hm hc ho =>
    have e := (hc _ _ (Store.covers_self w.store)).size_eq
    exact ⟨Nat.le_of_eq e, fun hb => hb.trans e⟩
  | committed ho => exact ⟨Nat.le_refl _, id⟩
  | @rolledBack cp opened ho hm =>
    have e : w.heap.size = ((w.session.rollback? cp).getD w.session).heap.size := by
      unfold Session.rollback?
      split
      · exact (Heap.size_release w.heap _).symm
      · rfl
    exact ⟨Nat.le_of_eq e, fun hb => hb.trans e⟩
  | manual ha hm hs => exact ⟨Nat.le_of_eq hs.symm, fun hb => hb.trans hs.symm⟩

/-- Every reachable workspace is in order. -/
theorem Reachable.sound (hw : w.Reachable) : w.Sound := by
  refine hw.invariant (fun w h => ⟨Session.sound_new h, ?_⟩) fun w w' a h hp => sound_perform? h hp
  obtain ⟨ops, journal, -, rfl⟩ := h
  intro c hc
  cases hc

/-- Of every slot of a reachable heap it is known what it held when it was made. -/
theorem Reachable.size_born (hw : w.Reachable) : w.born.size = w.heap.size := by
  induction hw with
  | new h =>
    obtain ⟨ops, journal, -, rfl⟩ := h
    rfl
  | step a hw h ih => exact (size_heap_perform? hw.sound h).2 ih

/-! ## Operators -/

/-- Only the definition of an operator changes the operators. -/
theorem ops_answer? {s s' : Session} {r : Request} {cs : List Cell} (h : s.answer? r = some (cs, s')) :
    s'.ops = s.ops ∨ ∃ name priority cls, s'.ops = s.ops.add name priority cls := by
  cases r with
  | var => cases h; exact .inl rfl
  | atom name => cases h; exact .inl rfl
  | int n =>
    simp only [Session.answer?] at h
    split at h <;> cases h
    exact .inl rfl
  | big n => cases h; exact .inl rfl
  | global n => cases h; exact .inl rfl
  | nil => cases h; exact .inl rfl
  | term name args =>
    cases h
    unfold Session.newTerm
    split <;> exact .inl rfl
  | list items tail => cases h; exact .inl rfl
  | functor name arity => cases h; exact .inl rfl
  | deref c =>
    obtain ⟨d, -, e⟩ := Option.map_eq_some_iff.1 h
    cases e
    exact .inl rfl
  | arg c n =>
    obtain ⟨d, -, e⟩ := Option.map_eq_some_iff.1 h
    cases e
    exact .inl rfl
  | parse text =>
    cases h
    left
    unfold Session.parse
    dsimp only
    split
    · rfl
    · split
      · next c _ =>
        obtain ⟨j, hj⟩ := Session.exists_noteParsed (s.withDraft _) c
        rw [hj]
        rfl
      · rfl
  | parseAll text =>
    cases h
    left
    unfold Session.parseAll
    dsimp only
    split
    · next cs _ =>
      obtain ⟨j, hj⟩ := Session.exists_foldl_noteParsed (s.withDraft _) cs
      rw [hj]
      rfl
    · rfl
  | addOp name priority cls =>
    cases h
    exact .inr ⟨name, priority, cls, rfl⟩

/-- All actions but requests only change the store, and record events. -/
theorem request_or_store_of_perform? {a : Action} (h : w.perform? a = some w') :
    (∃ r cs s, (∀ c ∈ r.terms, c ∈ w.handles) ∧ w.session.answer? r = some (cs, s) ∧
      w' = w.advance cs s) ∨
      ∃ store journal opened, w' = { w with session := { w.session with store, journal }, opened } := by
  cases a with
  | request r =>
    simp only [perform?] at h
    split at h
    · next hr =>
      obtain ⟨⟨cs, s⟩, hans, rfl⟩ := Option.map_eq_some_iff.1 h
      exact .inl ⟨r, cs, s, hr, hans, rfl⟩
    · cases h
  | unify a b =>
    simp only [perform?] at h
    split at h
    · obtain ⟨⟨v, s⟩, hu, rfl⟩ := Option.map_eq_some_iff.1 h
      obtain ⟨t, ht, e⟩ := Option.map_eq_some_iff.1 hu
      obtain ⟨u, -, rfl⟩ := Option.map_eq_some_iff.1 ht
      cases u <;> cases e <;> exact .inr ⟨_, _, _, rfl⟩
    · cases h
  | tryUnify a b =>
    simp only [perform?] at h
    split at h
    · obtain ⟨t, ht, e⟩ := Option.map_eq_some_iff.1 h
      obtain ⟨u, -, rfl⟩ := Option.map_eq_some_iff.1 ht
      cases u <;> cases e <;> exact .inr ⟨_, _, _, rfl⟩
    · cases h
  | begin => cases h; exact .inr ⟨_, _, _, rfl⟩
  | commit =>
    simp only [perform?] at h
    split at h <;> cases h
    exact .inr ⟨_, _, _, rfl⟩
  | rollback =>
    simp only [perform?] at h
    split at h
    · cases h
    · next cp opened _ =>
      cases h
      unfold Session.rollback?
      split <;> exact .inr ⟨_, _, _, rfl⟩
  | unwind start stop =>
    obtain ⟨s, hs, rfl⟩ := Option.map_eq_some_iff.1 h
    obtain ⟨store, -, rfl⟩ := Option.map_eq_some_iff.1 hs
    exact .inr ⟨_, _, _, rfl⟩
  | trim depth => cases h; exact .inr ⟨_, _, _, rfl⟩

theorem ops_perform? {a : Action} (h : w.perform? a = some w') :
    w'.session.ops = w.session.ops ∨
      ∃ name priority cls, w'.session.ops = w.session.ops.add name priority cls := by
  rcases request_or_store_of_perform? h with ⟨r, cs, s, -, hans, rfl⟩ | ⟨store, journal, opened, rfl⟩
  · exact ops_answer? hans
  · exact .inl rfl

/-- The priorities of all operators of a reachable workspace are in their range. -/
theorem Reachable.inRange (hw : w.Reachable) : w.session.ops.InRange := by
  refine hw.invariant (P := fun w => w.session.ops.InRange) (fun w h => ?_) fun w w' a h hp => ?_
  · obtain ⟨ops, journal, hops, rfl⟩ := h
    rcases hops with rfl | rfl
    · exact OpTable.inRange_empty
    · exact OpTable.regular_standard.toInRange
  · rcases ops_perform? hp with e | ⟨name, priority, cls, e⟩
    · rw [e]
      exact h
    · rw [e]
      exact h.add name priority cls

/-- The operators of a reachable workspace are what comes of definitions one after the other. -/
theorem Reachable.exists_addAll (hw : w.Reachable) :
    ∃ (o : Origin) (ds : List Definition), w.session.ops = o.table.addAll ds := by
  refine hw.invariant (P := fun w => ∃ (o : Origin) (ds : List Definition),
    w.session.ops = o.table.addAll ds) (fun w h => ?_) fun w w' a h hp => ?_
  · obtain ⟨ops, journal, hops, rfl⟩ := h
    rcases hops with rfl | rfl
    · exact ⟨.empty, [], rfl⟩
    · exact ⟨.standard, [], rfl⟩
  · obtain ⟨o, ds, hds⟩ := h
    rcases ops_perform? hp with e | ⟨name, priority, cls, e⟩
    · exact ⟨o, ds, e.trans hds⟩
    · refine ⟨o, ds ++ [⟨name, priority, cls⟩], ?_⟩
      rw [e, hds, OpTable.addAll_append_singleton]

/-- The atoms of a reachable workspace are what comes of names one after the other. -/
theorem Reachable.exists_ofNames (hw : w.Reachable) :
    ∃ names, w.session.atoms = AtomTable.ofNames names :=
  AtomTable.wellFormed_iff.1 hw.sound.session.atoms

end Workspace

end PrologTerms
