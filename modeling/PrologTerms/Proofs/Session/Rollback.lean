import PrologTerms.Proofs.Session.Sound
import PrologTerms.Proofs.Store.Undo

/-!
# Rollbacks are exact

Whatever is done in a transaction short of tampering with the trail, with transactions in it that are
committed or rolled back in their turn, a rollback brings everything back: old slots, trail, pending
pairs and boundary are as when the transaction was opened, and new slots as when they were made.
-/

namespace PrologTerms

namespace Workspace

/-- The workspace `w'` has come from `w` by opening a transaction at a checkpoint. -/
def Opens (w : Workspace) (cp : Checkpoint) (w' : Workspace) : Prop :=
  ∃ a, w.perform? a = some w' ∧ w'.opened = cp :: w.opened

/-- The workspace `w'` has come from `w` by actions that neither tamper with the trail nor close one
of the transactions `floor`. -/
inductive Within (floor : List Checkpoint) (w : Workspace) : Workspace → Prop
  /-- Nothing is done. -/
  | refl : Within floor w w
  /-- One more action is performed. -/
  | step {w' w'' : Workspace} (a : Action) (h : Within floor w w') (ha : a.isManual = false)
      (hp : w'.perform? a = some w'') (hf : floor <:+ w''.opened) : Within floor w w''

/-- The session has all that can be undone as it is in the workspace, and behind that the slots of
`born`. -/
structure Restored (w : Workspace) (born : Heap) (s : Session) : Prop where
  /-- The slots of the workspace. -/
  older : ∀ i : Nat, i < w.heap.size → s.heap.get? i = w.heap.get? i
  /-- The slots behind these, with what they held when they were made. -/
  newer : ∀ i : Nat, w.heap.size ≤ i → s.heap.get? i = born.get? i
  /-- The trail. -/
  trail : s.store.trail = w.store.trail
  /-- The pending pairs. -/
  pending : s.store.pending = w.store.pending
  /-- The boundary. -/
  boundary : s.store.boundary = w.store.boundary

/-! ## What is known inside a transaction -/

/-- The depths of the trail in the checkpoints go down from `top` to `bottom`. -/
def Descending (bottom : Nat) : Nat → List Checkpoint → Prop
  | top, [] => bottom ≤ top
  | top, cp :: cps => cp.trailDepth ≤ top ∧ Descending bottom cp.trailDepth cps

theorem Descending.mono {bottom top top' : Nat} {cps : List Checkpoint}
    (h : Descending bottom top cps) (hle : top ≤ top') : Descending bottom top' cps := by
  cases cps with
  | nil => exact Nat.le_trans h hle
  | cons cp cps => exact ⟨Nat.le_trans h.1 hle, h.2⟩

theorem Descending.bottom_le {bottom top : Nat} {cps : List Checkpoint}
    (h : Descending bottom top cps) : bottom ≤ top := by
  induction cps generalizing top with
  | nil => exact h
  | cons cp cps ih => exact Nat.le_trans (ih h.2) h.1

/-- The heap of a workspace with the slots made since as they were made. -/
def base (w w' : Workspace) : Heap := w.heap.append (w'.born.toList.drop w.heap.size)

/-- What was done since the workspace `w` can be undone by its trail. -/
structure Tracks (w w' : Workspace) : Prop where
  /-- Everything is in order. -/
  sound : w'.Sound
  /-- For every slot it is recorded what it held when it was made. -/
  born : w'.born.size = w'.heap.size
  /-- No slot is lost. -/
  size_le : w.heap.size ≤ w'.heap.size
  /-- All bindings since are on the trail. -/
  covers : w'.store.Covers w.store.trail.entries.toList (w.base w')

/-- The invariant inside a transaction that was opened in the workspace `w` at the checkpoint `cp`.
-/
structure Inside (w : Workspace) (cp : Checkpoint) (w' : Workspace) : Prop extends Tracks w w' where
  /-- The transactions inside were opened later. -/
  opened : ∃ inner, w'.opened = inner ++ cp :: w.opened ∧
    Descending w.store.trail.depth w'.store.trail.depth inner

variable {w w' w'' : Workspace} {cp : Checkpoint}

/-- What follows the slots of a workspace when new slots are added. -/
theorem base_advance (hb : w'.born.size = w'.heap.size) (hle : w.heap.size ≤ w'.heap.size)
    (cs : List Cell) (s : Session) :
    w.base (w'.advance cs s) = (w.base w').append (s.heap.toList.drop w'.heap.size) := by
  have hlen : w.heap.size ≤ w'.born.toList.length := by
    rw [Arena.length_toList]
    omega
  rw [base, base, Arena.append_append, advance, Arena.toList_append,
    List.drop_append_of_le_length hlen, hb]

theorem Tracks.refl (hs : w.Sound) (hb : w.born.size = w.heap.size) : w.Tracks w := by
  have hbase : w.base w = w.heap := by
    have hnil : w.born.toList.drop w.heap.size = [] := by
      rw [← hb, ← Arena.length_toList, List.drop_length]
    rw [base, hnil, Arena.append_nil]
  refine ⟨hs, hb, Nat.le_refl _, ?_⟩
  rw [hbase]
  exact Store.covers_self w.store

/-- A transaction that is closed is one of those inside, if the others stay open. -/
theorem Descending.tail {bottom top : Nat} {inner outer opened : List Checkpoint}
    (hd : Descending bottom top inner) (ho : inner ++ outer = cp :: opened) (hf : outer <:+ opened) :
    cp.trailDepth ≤ top ∧ ∃ inner', opened = inner' ++ outer ∧
      Descending bottom cp.trailDepth inner' := by
  cases inner with
  | nil =>
    have hlen := hf.length_le
    rw [List.nil_append] at ho
    rw [ho, List.length_cons] at hlen
    omega
  | cons c inner =>
    obtain ⟨rfl, rfl⟩ := List.cons.inj ho
    exact ⟨hd.1, inner, rfl, hd.2⟩

theorem depth_rollback {s : Store} (h : cp.trailDepth ≤ s.trail.depth) :
    (s.rollback cp).trail.depth = cp.trailDepth := by
  simp only [Store.rollback]
  rw [Trail.depth, ← Array.length_toList, Store.toList_trim, List.length_take,
    Array.length_toList]
  exact Nat.min_eq_left h

theorem rollback?_eq (s : Session) (h : cp.trailDepth ≤ s.store.trail.depth) :
    ∃ s', s.rollback? cp = some s' ∧ s'.store = s.store.rollback cp := by
  unfold Session.rollback?
  rw [if_pos h]
  exact ⟨_, rfl, rfl⟩

/-- Opening a transaction establishes the invariant. -/
theorem Opens.inside (hw : w.Reachable) (h : w.Opens cp w') :
    cp = w.store.openTransaction.1 ∧ w.Inside cp w' := by
  obtain ⟨a, hp, ho⟩ := h
  have hs := sound_perform? hw.sound hp
  obtain ⟨hle, hborn⟩ := size_heap_perform? hw.sound hp
  have he := effect_perform? hw.sound hp
  have hlen : w'.opened.length = w.opened.length + 1 := by rw [ho, List.length_cons]
  cases he with
  | answered ha => simp [advance] at hlen
  | @bound _ s opened hm hc hopened =>
    have hopened' : opened = cp :: w.opened := ho
    rcases hopened with rfl | hopened
    · simp at hlen
    · rw [hopened', List.cons.injEq] at hopened
      have hcov := hc _ _ (Store.covers_self w.store)
      have htracks : w.Tracks { w with session := s, opened } :=
        ⟨hs, hborn hw.size_born, hle, hc _ _ (Tracks.refl hw.sound hw.size_born).covers⟩
      exact ⟨hopened.1, htracks, [], ho, hcov.le_depth⟩
  | committed hopened =>
    rw [hopened, List.length_cons] at hlen
    simp at hlen
    omega
  | rolledBack hopened =>
    rw [hopened, List.length_cons] at hlen
    simp at hlen
    omega
  | manual => simp at hlen

/-- What is done keeps track of the bindings, unless a transaction is rolled back that was opened when
the trail was less deep. -/
theorem Tracks.perform? (h : w.Tracks w') {a : Action} (ha : a.isManual = false)
    (hp : w'.perform? a = some w'')
    (hroll : ∀ cp opened, a = .rollback → w'.opened = cp :: opened →
      w.store.trail.depth ≤ cp.trailDepth ∧ cp.trailDepth ≤ w'.store.trail.depth) :
    w.Tracks w'' := by
  have hs := sound_perform? h.sound hp
  obtain ⟨hle, hborn⟩ := size_heap_perform? h.sound hp
  have hle' := Nat.le_trans h.size_le hle
  have he := effect_perform? h.sound hp
  cases he with
  | @answered r cs s hans =>
    have hstore : (w'.advance cs s).store = { w'.store with heap := s.heap } := hans.store
    refine ⟨hs, hborn h.born, hle', ?_⟩
    rw [base_advance h.born h.size_le, hstore]
    exact h.covers.grow h.sound.session.store.trail hans.grows
  | bound hm hc hopened => exact ⟨hs, hborn h.born, hle', hc _ _ h.covers⟩
  | committed ho => exact ⟨hs, hborn h.born, hle', h.covers⟩
  | @rolledBack cp opened ho hm =>
    obtain ⟨hbottom, htop⟩ := hroll cp opened rfl ho
    obtain ⟨s, hroll, hstore⟩ := rollback?_eq w'.session htop
    simp only [hroll, Option.getD_some] at hs hle hle' hborn ⊢
    refine ⟨hs, hborn h.born, hle', ?_⟩
    show s.store.Covers _ _
    rw [hstore]
    exact h.covers.rollback cp hbottom
  | manual hman => rw [ha] at hman; cases hman

/-- Transactions are opened at depths that go down from the depth of the trail, and what is done keeps
this so. -/
theorem descending_perform? (hw : w.Sound) {a : Action} (ha : a.isManual = false)
    (hp : w.perform? a = some w') {bottom : Nat} {inner outer : List Checkpoint}
    (hin : w.opened = inner ++ outer) (hd : Descending bottom w.store.trail.depth inner)
    (hf : outer <:+ w'.opened) : ∃ inner', w'.opened = inner' ++ outer ∧
      Descending bottom w'.store.trail.depth inner' := by
  have he := effect_perform? hw hp
  cases he with
  | @answered r cs s hans =>
    have hstore : (w.advance cs s).store = { w.store with heap := s.heap } := hans.store
    refine ⟨inner, hin, ?_⟩
    rw [hstore]
    exact hd
  | @bound _ s opened hm hc hopened =>
    have hdepth : w.store.trail.depth ≤ s.store.trail.depth :=
      (hc _ _ (Store.covers_self w.store)).le_depth
    rcases hopened with rfl | rfl
    · exact ⟨inner, hin, hd.mono hdepth⟩
    · exact ⟨_ :: inner, congrArg _ hin, hdepth, hd⟩
  | @committed cp opened ho =>
    obtain ⟨htop, inner', hin', hd'⟩ := hd.tail (hin.symm.trans ho) hf
    exact ⟨inner', hin', hd'.mono htop⟩
  | @rolledBack cp opened ho hm =>
    obtain ⟨htop, inner', hin', hd'⟩ := hd.tail (hin.symm.trans ho) hf
    obtain ⟨s, hroll, hstore⟩ := rollback?_eq w.session htop
    have hdepth : s.store.trail.depth = cp.trailDepth := by
      rw [hstore]
      exact depth_rollback htop
    refine ⟨inner', hin', ?_⟩
    simp only [hroll, Option.getD_some]
    show Descending _ s.store.trail.depth inner'
    rw [hdepth]
    exact hd'
  | manual hman => rw [ha] at hman; cases hman

/-- What is done in a transaction keeps the invariant. -/
theorem Inside.perform? (hi : w.Inside cp w') {a : Action} (ha : a.isManual = false)
    (hp : w'.perform? a = some w'') (hf : cp :: w.opened <:+ w''.opened) : w.Inside cp w'' := by
  obtain ⟨inner, hin, hd⟩ := hi.opened
  refine ⟨hi.toTracks.perform? ha hp fun cp' opened e ho => ?_,
    descending_perform? hi.sound ha hp hin hd hf⟩
  subst e
  have hopened : w''.opened = opened := by
    simp only [Workspace.perform?, ho, Option.some.injEq] at hp
    rw [← hp]
  obtain ⟨htop, inner', -, hd'⟩ := hd.tail (hin.symm.trans ho) (hopened ▸ hf)
  exact ⟨hd'.bottom_le, htop⟩

theorem Within.inside {w₁ : Workspace} (hi : w.Inside cp w₁)
    (h : Within (cp :: w.opened) w₁ w') : w.Inside cp w' := by
  induction h with
  | refl => exact hi
  | step a _ ha hp hf ih => exact ih.perform? ha hp hf

/-! ## Closing the transaction -/

/-- Rolling back restores all that was there when the transaction was opened. -/
theorem Inside.restored (hw : w.Sound) (hcp : cp = w.store.openTransaction.1)
    (hi : w.Inside cp w') :
    ∃ s, w'.session.rollback? cp = some s ∧ w.Restored w'.born s := by
  obtain ⟨hheap, htrail⟩ := hi.covers.rollback_eq cp (by rw [hcp]; rfl)
  obtain ⟨s, hroll, hstore⟩ := rollback?_eq w'.session
    (show cp.trailDepth ≤ w'.store.trail.depth by rw [hcp]; exact hi.covers.le_depth)
  have hget : ∀ i, s.heap.get? i = (w.base w').get? i := by
    intro i
    rw [← hheap]
    show Arena.get? s.store.heap i = _
    rw [hstore]
    rfl
  refine ⟨s, hroll, fun i hlt => ?_, fun i hle => ?_, ?_, ?_, ?_⟩
  · rw [hget, base, Arena.get?_append, if_pos hlt]
  · rw [hget, base, Arena.get?_append, if_neg (Nat.not_lt.2 hle), List.getElem?_drop,
      Arena.getElem?_toList, Nat.add_sub_cancel' hle]
  · rw [hstore]
    exact congrArg Trail.mk (Array.toList_inj.1 htrail)
  · have h₁ : w'.store.pending = [] := hi.sound.session.pending
    have h₂ : w.store.pending = [] := hw.session.pending
    rw [hstore, h₂]
    show List.drop _ w'.store.pending = []
    rw [h₁, List.drop_nil]
  · rw [hstore, hcp]
    rfl

/-- Rollbacks are exact. Whatever is done inside of a transaction, closing it by a rollback restores
the session of its opening, up to the slots made inside, which get back what they held when they were
made. An attempt to unify that fails, or meets stand-ins, does not touch the store at all. -/
theorem rollback_restores (hw : w.Reachable) :
    (∀ cp w₁ w₂, w.Opens cp w₁ → Within (cp :: w.opened) w₁ w₂ → w₂.opened = cp :: w.opened →
      ∃ s, w₂.session.rollback? cp = some s ∧
        w₂.perform? .rollback = some { w₂ with session := s, opened := w.opened } ∧
        w.Restored w₂.born s) ∧
    ∀ a ∈ w.handles, ∀ b ∈ w.handles,
      (∀ v s, w.session.unify? a b = some (v, s) → v ≠ .unified → s.store = w.store) ∧
      ∀ v s, w.session.tryUnify? a b = some (.failure v s) → s.store = w.store := by
  refine ⟨fun cp w₁ w₂ hopen hin ho => ?_, fun a ha b hb => ⟨fun v s hu hv => ?_, fun v s hu => ?_⟩⟩
  · obtain ⟨hcp, hi⟩ := hopen.inside hw
    obtain ⟨s, hroll, hres⟩ := (hin.inside hi).restored hw.sound hcp
    refine ⟨s, hroll, ?_, hres⟩
    simp only [Workspace.perform?, ho, hroll, Option.getD_some]
  · have hs := hw.sound
    exact (Session.moves_unify? hs.session (hs.handles a ha) (hs.handles b hb) hu).2.1 hv
  · have hs := hw.sound
    exact (Session.moves_tryUnify? hs.session (hs.handles a ha) (hs.handles b hb) hu).2

/-- Inside a transaction a new variable is bound to a list in a transaction of its own, which is
committed after an older variable was bound as well. Rolling back the outer transaction makes both of
them unbound. -/
theorem rollback_restores_nested : ∃ (w w₂ : Workspace) (s : Session), w.Reachable ∧
    w.run? [.begin, .request .var, .tryUnify (.ref 4) (.str 1), .unify (.ref 0) .nil, .commit] =
      some w₂ ∧ w₂.heap.toList = [.nil, .con .dot, .ref 0, .nil, .str 1] ∧
    w₂.perform? .rollback = some { w₂ with session := s, opened := w.opened } ∧
    w.Restored w₂.born s := by
  let at_ (heap : List Cell) (trail : List Address) (boundary : Nat) (handles : List Cell)
      (opened : List Checkpoint) (born : List Cell) : Workspace :=
    ⟨{ store := ⟨⟨heap.toArray⟩, ⟨trail.toArray⟩, [], boundary⟩ }, handles, opened, ⟨born.toArray⟩⟩
  let old : List Cell := [.ref 0, .con .dot, .ref 0, .nil]
  let cp : Checkpoint := ⟨0, 0, 0⟩
  let w := at_ old [] 0 [.str 1, .nil, .ref 0] [] old
  let w₁ := at_ old [] 4 [.str 1, .nil, .ref 0] [cp] old
  let w₂ := at_ (old ++ [.ref 4]) [] 4 [.ref 4, .str 1, .nil, .ref 0] [cp] (old ++ [.ref 4])
  let w₃ := at_ (old ++ [.str 1]) [4] 5 [.ref 4, .str 1, .nil, .ref 0] [⟨0, 0, 4⟩, cp]
    (old ++ [.ref 4])
  let w₄ := at_ [.nil, .con .dot, .ref 0, .nil, .str 1] [4, 0] 5 [.ref 4, .str 1, .nil, .ref 0]
    [⟨0, 0, 4⟩, cp] (old ++ [.ref 4])
  let w₅ := at_ [.nil, .con .dot, .ref 0, .nil, .str 1] [4, 0] 4 [.ref 4, .str 1, .nil, .ref 0]
    [cp] (old ++ [.ref 4])
  have hw : w.Reachable := reachable_blank.run [.request .var, .request .nil,
    .request (.list [.ref 0] .nil)] (by decide +kernel)
  have hin : Within (cp :: w.opened) w₁ w₅ := by
    have h₂ : Within (cp :: w.opened) w₁ w₂ :=
      .step (.request .var) .refl rfl (by decide +kernel) ⟨[], rfl⟩
    have h₃ : Within (cp :: w.opened) w₁ w₃ :=
      .step (.tryUnify (.ref 4) (.str 1)) h₂ rfl (by decide +kernel) ⟨[⟨0, 0, 4⟩], rfl⟩
    have h₄ : Within (cp :: w.opened) w₁ w₄ :=
      .step (.unify (.ref 0) .nil) h₃ rfl (by decide +kernel) ⟨[⟨0, 0, 4⟩], rfl⟩
    exact .step .commit h₄ rfl (by decide +kernel) ⟨[], rfl⟩
  have hopen : w.Opens cp w₁ := ⟨.begin, by decide +kernel, rfl⟩
  obtain ⟨s, -, hroll, hres⟩ := (rollback_restores hw).1 cp w₁ w₅ hopen hin rfl
  exact ⟨w, w₅, s, hw, by decide +kernel, rfl, hroll, hres⟩

end Workspace

end PrologTerms
