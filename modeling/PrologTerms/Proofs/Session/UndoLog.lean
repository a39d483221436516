import PrologTerms.Proofs.Session.Rollback
import PrologTerms.Proofs.Store.Exact

/-!
# The trail is an undo log

As long as nobody tampers with the trail, the variables on it are exactly those that differ from what
they were when they were made, in every nesting of transactions that are committed or rolled back. Going
back to the depth that the trail had at any moment therefore gives back that moment, provided that the
trail was never less deep in between.
-/

namespace PrologTerms

namespace Session

variable {s s' : Session}

/-- An answer adds slots, so that the trail stays exact. -/
theorem Answers.exact {cs : List Cell} (h : s.Answers cs s') (he : s.store.Exact) :
    s'.store.Exact := by
  rw [h.store]
  exact he.grow h.grows

theorem exact_tryUnify? (hs : s.Sound) {a b : Cell} (ha : s.heap.IsTerm s.atoms.size a)
    (hb : s.heap.IsTerm s.atoms.size b) {t : Attempt} (h : s.tryUnify? a b = some t)
    (he : s.store.Exact) : t.session.store.Exact := by
  obtain ⟨u, hu, e⟩ := Option.map_eq_some_iff.1 h
  have hx := he.tryUnify? hs.store ha hb hu
  cases u <;> cases e <;> exact hx

theorem exact_unify? (hs : s.Sound) {a b : Cell} (ha : s.heap.IsTerm s.atoms.size a)
    (hb : s.heap.IsTerm s.atoms.size b) {v : Verdict} (h : s.unify? a b = some (v, s'))
    (he : s.store.Exact) : s'.store.Exact := by
  obtain ⟨t, ht, e⟩ := Option.map_eq_some_iff.1 h
  have hx := exact_tryUnify? hs ha hb ht he
  cases t with
  | success cp s₁ =>
    cases e
    exact ⟨hx.nodup, hx.bound⟩
  | failure v s₁ =>
    cases e
    exact hx

theorem exact_rollback? {cp : Checkpoint} (h : s.rollback? cp = some s') (he : s.store.Exact) :
    s'.store.Exact := by
  unfold rollback? at h
  split at h <;> cases h
  exact he.rollback cp

end Session

namespace Workspace

/-- The workspace `w'` has come from `w` by actions that do not tamper with the trail and never leave
it less deep than `depth`. -/
inductive Since (depth : Nat) (w : Workspace) : Workspace → Prop
  /-- Nothing is done. -/
  | refl : Since depth w w
  /-- One more action is performed. -/
  | step {w' w'' : Workspace} (a : Action) (h : Since depth w w') (ha : a.isManual = false)
      (hp : w'.perform? a = some w'') (hd : depth ≤ w''.store.trail.depth) : Since depth w w''

/-- Some use of a new session without tampering with the trail has led to the workspace. -/
def Untampered (w : Workspace) : Prop := ∃ w₀ : Workspace, w₀.IsNew ∧ Since 0 w₀ w

theorem Untampered.run {w w' : Workspace} (hw : w.Untampered) (as : List Action)
    (ha : ∀ a ∈ as, a.isManual = false) (h : w.run? as = some w') : w'.Untampered := by
  induction as generalizing w with
  | nil =>
    cases h
    exact hw
  | cons a as ih =>
    obtain ⟨w₁, h₁, h₂⟩ := Option.bind_eq_some_iff.1 h
    obtain ⟨w₀, h₀, hs⟩ := hw
    have hw₁ : w₁.Untampered :=
      ⟨w₀, h₀, .step a hs (ha a List.mem_cons_self) h₁ (Nat.zero_le _)⟩
    exact ih hw₁ (fun b hb => ha b (List.mem_cons_of_mem a hb)) h₂

/-- What is known of the trail of a workspace that has come from `w₀` without tampering. -/
structure Logged (w₀ w : Workspace) : Prop extends Tracks w₀ w where
  /-- The trail has bound variables only, each of them once. -/
  exact : w.store.Exact
  /-- A transaction was opened when the trail was no deeper than in the transactions inside it. -/
  opened : Descending 0 w.store.trail.depth w.opened

variable {w w' w'' w₀ : Workspace}

/-- Every action but tampering keeps the trail exact. -/
theorem exact_perform? (hw : w.Sound) {a : Action} (ha : a.isManual = false)
    (hp : w.perform? a = some w') (he : w.store.Exact) : w'.store.Exact := by
  cases a with
  | request r =>
    simp only [Workspace.perform?] at hp
    split at hp
    · next hr =>
      obtain ⟨⟨cs, s⟩, hans, rfl⟩ := Option.map_eq_some_iff.1 hp
      have h := Session.answers_answer? hw.session (fun c hc => hw.handles c (hr c hc)) hans
      exact h.exact he
    · cases hp
  | unify a b =>
    simp only [Workspace.perform?] at hp
    split at hp
    · next hab =>
      obtain ⟨⟨v, s⟩, hu, rfl⟩ := Option.map_eq_some_iff.1 hp
      exact Session.exact_unify? hw.session (hw.handles a hab.1) (hw.handles b hab.2) hu he
    · cases hp
  | tryUnify a b =>
    simp only [Workspace.perform?] at hp
    split at hp
    · next hab =>
      obtain ⟨t, hu, e⟩ := Option.map_eq_some_iff.1 hp
      have h := Session.exact_tryUnify? hw.session (hw.handles a hab.1) (hw.handles b hab.2) hu he
      cases t <;> cases e <;> exact h
    · cases hp
  | begin =>
    cases hp
    exact ⟨he.nodup, he.bound⟩
  | commit =>
    simp only [Workspace.perform?] at hp
    split at hp <;> cases hp
    exact ⟨he.nodup, he.bound⟩
  | rollback =>
    simp only [Workspace.perform?] at hp
    split at hp
    · cases hp
    · next cp opened _ =>
      cases hp
      show ((w.session.rollback? cp).getD w.session).store.Exact
      cases e : w.session.rollback? cp with
      | none => exact he
      | some s => exact Session.exact_rollback? e he
  | unwind start stop => cases ha
  | trim depth => cases ha

theorem logged_new (h : w.IsNew) : w.Logged w := by
  have hs : w.Sound := Reachable.sound (.new h)
  have hb : w.born.size = w.heap.size := Reachable.size_born (.new h)
  obtain ⟨ops, journal, -, rfl⟩ := h
  exact ⟨Tracks.refl hs hb, ⟨List.nodup_nil, fun i hi => by cases hi⟩, Nat.le_refl 0⟩

/-- Every action but tampering keeps what is known of the trail: no transaction was opened before the
trail had its depth in the new session, which is none. -/
theorem Logged.perform? (h : w₀.Logged w) (h₀ : w₀.IsNew) {a : Action} (ha : a.isManual = false)
    (hp : w.perform? a = some w') : w₀.Logged w' := by
  obtain ⟨inner, hin, hd⟩ := descending_perform? h.sound ha hp (List.append_nil _).symm h.opened
    (List.nil_suffix)
  refine ⟨h.toTracks.perform? ha hp fun cp opened _ ho => ?_, exact_perform? h.sound ha hp h.exact,
    ?_⟩
  · obtain ⟨ops, journal, -, rfl⟩ := h₀
    have hcp := h.opened
    rw [ho] at hcp
    exact ⟨Nat.zero_le _, hcp.1⟩
  · rw [hin, List.append_nil]
    exact hd

theorem Logged.since (h : w₀.Logged w) (h₀ : w₀.IsNew) {depth : Nat} (hs : Since depth w w') :
    w₀.Logged w' := by
  induction hs with
  | refl => exact h
  | step a _ ha hp _ ih => exact ih.perform? h₀ ha hp

/-- Since a moment at which the trail was no deeper than ever after, all bindings can be undone by the
trail. -/
theorem Logged.tracks (h : w₀.Logged w) (h₀ : w₀.IsNew)
    (hs : Since w.store.trail.depth w w') : w.Tracks w' := by
  induction hs with
  | refl => exact Tracks.refl h.sound h.born
  | @step w' w'' a hs ha hp hd ih =>
    refine ih.perform? ha hp fun cp opened e ho => ?_
    have hcp := (h.since h₀ hs).opened
    rw [ho] at hcp
    -- the trail is as deep afterwards as it was when the transaction was opened
    obtain ⟨s, hroll, hstore⟩ := rollback?_eq w'.session hcp.1
    subst e
    simp only [Workspace.perform?, ho, hroll, Option.getD_some, Option.some.injEq] at hp
    have hdepth : w''.store.trail.depth = cp.trailDepth := by
      rw [← hp]
      show s.store.trail.depth = cp.trailDepth
      rw [hstore]
      exact depth_rollback hcp.1
    exact ⟨hdepth ▸ hd, hcp.1⟩

/-- A new workspace has no slots. -/
theorem base_new (h₀ : w₀.IsNew) (w : Workspace) : w₀.base w = w.born := by
  obtain ⟨ops, journal, -, rfl⟩ := h₀
  apply Arena.ext_get?
  intro k
  have hk : ¬ k < Arena.size ({} : Heap) := Nat.not_lt_zero k
  show (Arena.append {} (w.born.toList.drop 0)).get? k = w.born.get? k
  rw [List.drop_zero, Arena.get?_append, if_neg hk, Arena.getElem?_toList]
  rfl

/-- The variables on the trail are those that were bound. -/
theorem Logged.born_eq (h : w₀.Logged w) (h₀ : w₀.IsNew) (i : Address) :
    (i ∈ w.store.trail.entries.toList → w.born.get? i = some (.ref i)) ∧
      (i ∉ w.store.trail.entries.toList → w.heap.get? i = w.born.get? i) := by
  obtain ⟨new, ht, hr⟩ := h.covers
  rw [base_new h₀] at hr
  obtain ⟨ops, journal, -, rfl⟩ := h₀
  have ht' : w.store.trail.entries.toList = new := ht
  rw [ht', ← hr]
  refine ⟨fun hi => ?_, fun hi => ?_⟩
  · have hlt := (h.sound.session.store.trail i (ht' ▸ hi)).1
    rw [Heap.get?_release, if_pos ⟨hi, hlt⟩]
  · rw [Heap.get?_release, if_neg fun e => hi e.1]
    rfl

/-- Undoing all bindings since a moment, and forgetting them, gives back that moment. -/
theorem Tracks.undo (h : w.Tracks w') : ∃ w₁ w₂,
    w'.perform? (.unwind w.store.trail.depth w'.store.trail.depth) = some w₁ ∧
      w₁.perform? (.trim w.store.trail.depth) = some w₂ ∧
      w₂.store.trail = w.store.trail ∧ w₂.heap = w.base w' := by
  have hv := h.sound.session.store.trail
  obtain ⟨new, ht, hr⟩ := h.covers
  have hlen : w.store.trail.entries.toList.length = w.store.trail.depth := Array.length_toList
  have hlen' : w'.store.trail.entries.toList.length = w'.store.trail.depth := Array.length_toList
  have hnew : ((w'.store.trail.entries.toList.take w'.store.trail.depth).drop
      w.store.trail.depth) = new := by
    rw [← hlen', List.take_length, ht, ← hlen, List.drop_left]
  have hle : w.store.trail.depth ≤ w'.store.trail.depth := by
    rw [← hlen, ← hlen', ht, List.length_append]
    exact Nat.le_add_right _ _
  have hunwind : w'.store.trail.unwind? w'.store.heap w.store.trail.depth w'.store.trail.depth =
      some (w.base w') := by
    unfold Trail.unwind?
    dsimp only
    rw [hnew, hr, if_pos]
    refine ⟨hle, Nat.le_refl _, List.all_eq_true.2 fun i hi => ?_⟩
    exact decide_eq_true (hv i (ht ▸ List.mem_append_right _ hi)).1
  let s₁ : Session := { w'.session with store := { w'.store with heap := w.base w' } }
  have hs₁ : w'.session.unwind? w.store.trail.depth w'.store.trail.depth = some s₁ := by
    unfold Session.unwind? Store.unwind?
    show Option.map _ (Option.map _ (w'.store.trail.unwind? w'.store.heap _ _)) = _
    rw [hunwind]
    rfl
  refine ⟨{ w' with session := s₁ }, { w' with session := s₁.trim w.store.trail.depth },
    by rw [Workspace.perform?, hs₁]; rfl, rfl, ?_, rfl⟩
  show w'.store.trail.trim w.store.trail.depth = w.store.trail
  refine congrArg Trail.mk (Array.toList_inj.1 ?_)
  rw [← hlen]
  exact (Store.toList_trim w'.store.trail _).trans (by rw [ht, List.take_left])

/-- The trail is a complete and exact undo log. It has no variable twice, its variables are bound, and
all other slots hold what they held when they were made. Going back to the depth that it had at some
moment, if it was never less deep in between, gives back the slots and the trail of that moment, with
newer slots as they were made. -/
theorem trail_undoes (hw : w.Untampered) :
    w.store.trail.entries.toList.Nodup ∧
    (∀ i ∈ w.store.trail.entries.toList,
      w.born.get? i = some (.ref i) ∧ ∃ c, w.heap.get? i = some c ∧ c ≠ .ref i) ∧
    (∀ i ∉ w.store.trail.entries.toList, w.heap.get? i = w.born.get? i) ∧
    ∀ w', Since w.store.trail.depth w w' → ∃ w₁ w₂,
      w'.perform? (.unwind w.store.trail.depth w'.store.trail.depth) = some w₁ ∧
      w₁.perform? (.trim w.store.trail.depth) = some w₂ ∧
      w₂.store.trail = w.store.trail ∧ w₂.heap.size = w'.heap.size ∧
      (∀ i, i < w.heap.size → w₂.heap.get? i = w.heap.get? i) ∧
      ∀ i, w.heap.size ≤ i → w₂.heap.get? i = w'.born.get? i := by
  obtain ⟨w₀, h₀, hs⟩ := hw
  have h := (logged_new h₀).since h₀ hs
  refine ⟨h.exact.nodup, fun i hi => ⟨(h.born_eq h₀ i).1 hi, h.exact.bound i hi⟩,
    fun i hi => (h.born_eq h₀ i).2 hi, fun w' hs' => ?_⟩
  have ht := h.tracks h₀ hs'
  obtain ⟨w₁, w₂, h₁, h₂, htrail, hheap⟩ := ht.undo
  refine ⟨w₁, w₂, h₁, h₂, htrail, ?_, fun i hi => ?_, fun i hi => ?_⟩
  · rw [hheap]
    exact ht.covers.size_eq
  · rw [hheap, base, Arena.get?_append, if_pos hi]
  · rw [hheap, base, Arena.get?_append, if_neg (Nat.not_lt.2 hi), List.getElem?_drop,
      Arena.getElem?_toList, Nat.add_sub_cancel' hi]

/-- One variable is bound to another one, and the trail has one entry. Then the older one and a new one
are bound in two transactions, of which the inner one is committed; the outer one stays open. Undoing
two of the three bindings and forgetting them leaves the first one. -/
theorem trail_undoes_nested : ∃ w w' w₁ w₂ : Workspace, w.Untampered ∧
    Since w.store.trail.depth w w' ∧ w.heap.toList = [.ref 0, .ref 0] ∧
    w'.heap.toList = [.nil, .ref 0, .int 7] ∧ w'.store.trail.entries.toList = [1, 0, 2] ∧
    w'.perform? (.unwind 1 3) = some w₁ ∧ w₁.perform? (.trim 1) = some w₂ ∧
    w₂.heap.toList = [.ref 0, .ref 0, .ref 2] ∧ w₂.store.trail = w.store.trail := by
  let at_ (heap : List Cell) (trail : List Address) (boundary : Nat) (handles : List Cell)
      (opened : List Checkpoint) (born : List Cell) : Workspace :=
    ⟨{ store := ⟨⟨heap.toArray⟩, ⟨trail.toArray⟩, [], boundary⟩ }, handles, opened, ⟨born.toArray⟩⟩
  let old : List Cell := [.nil, .ref 1, .ref 0]
  let new : List Cell := .int 7 :: .ref 2 :: old
  let w := at_ [.ref 0, .ref 0] [1] 0 old [] [.ref 0, .ref 1]
  let w₁ := at_ [.ref 0, .ref 0] [1] 2 old [⟨1, 0, 0⟩] [.ref 0, .ref 1]
  let w₂ := at_ [.nil, .ref 0] [1, 0] 2 old [⟨1, 0, 2⟩, ⟨1, 0, 0⟩] [.ref 0, .ref 1]
  let w₃ := at_ [.nil, .ref 0] [1, 0] 2 old [⟨1, 0, 0⟩] [.ref 0, .ref 1]
  let w₄ := at_ [.nil, .ref 0, .ref 2] [1, 0] 2 (.ref 2 :: old) [⟨1, 0, 0⟩] [.ref 0, .ref 1, .ref 2]
  let w₅ := at_ [.nil, .ref 0, .ref 2] [1, 0] 2 new [⟨1, 0, 0⟩] [.ref 0, .ref 1, .ref 2]
  let w₆ := at_ [.nil, .ref 0, .int 7] [1, 0, 2] 2 new [⟨1, 0, 0⟩] [.ref 0, .ref 1, .ref 2]
  have hblank : blank.Untampered := ⟨blank, ⟨.standard, none, .inr rfl, rfl⟩, .refl⟩
  have hw : w.Untampered := hblank.run
    [.request .var, .request .var, .request .nil, .unify (.ref 0) (.ref 1)] (by decide)
    (by decide +kernel)
  have hs : Since w.store.trail.depth w w₆ := by
    have h₁ : Since 1 w w₁ := .step .begin .refl rfl (by decide +kernel) (by decide)
    have h₂ : Since 1 w w₂ :=
      .step (.tryUnify (.ref 1) .nil) h₁ rfl (by decide +kernel) (by decide)
    have h₃ : Since 1 w w₃ := .step .commit h₂ rfl (by decide +kernel) (by decide)
    have h₄ : Since 1 w w₄ := .step (.request .var) h₃ rfl (by decide +kernel) (by decide)
    have h₅ : Since 1 w w₅ := .step (.request (.int 7)) h₄ rfl (by decide +kernel) (by decide)
    exact .step (.unify (.ref 2) (.int 7)) h₅ rfl (by decide +kernel) (by decide)
  obtain ⟨-, -, -, hundo⟩ := trail_undoes hw
  obtain ⟨v₁, v₂, h₁, h₂, htrail, hsize, hold, hnew⟩ := hundo w₆ hs
  refine ⟨w, w₆, v₁, v₂, hw, hs, rfl, rfl, rfl, h₁, h₂, ?_, htrail⟩
  have hslot : ∀ i : Nat, v₂.heap.toList[i]? = [Cell.ref 0, .ref 0, .ref 2][i]? := by
    intro i
    rw [Arena.getElem?_toList]
    match i with
    | 0 => exact hold 0 (by decide)
    | 1 => exact hold 1 (by decide)
    | 2 => exact hnew 2 (by decide)
    | i + 3 => exact hnew (i + 3) (by simp [w, at_, heap, Session.heap, Arena.size])
  exact List.ext_getElem? hslot

end Workspace

end PrologTerms
