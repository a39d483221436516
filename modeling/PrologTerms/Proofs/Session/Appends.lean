import PrologTerms.Proofs.Heap.Rounds
import PrologTerms.Proofs.Session.Independent

/-!
# Reading only adds

Whether a text can be read or not, and wherever an error is met in it, reading adds slots, atoms and
names of variables, and leaves everything else alone. So what can be seen of a term does not change by
reading: its tree, its name if it is a variable, and which other terms it is equal to.
-/

namespace PrologTerms

namespace Session

/-- The session `s'` is `s` with slots, atoms and names of new variables added to it. -/
structure Appends (s s' : Session) : Prop where
  /-- Slots are added behind those that are there. -/
  heap : ∃ cells, s'.heap = s.heap.append cells
  /-- Trail, pending pairs and boundary are the same. -/
  store : s'.store = { s.store with heap := s'.heap }
  /-- So are the operators. -/
  ops : s'.ops = s.ops
  /-- Names of atoms are added behind those that are there. -/
  atoms : s.atoms.Extends s'.atoms
  /-- Names are added for variables in the new slots. -/
  names : s.names.Extended s.heap.size s'.names s'.heap.size

variable {s s' : Session} {cs : List Cell} {c d : Cell}

/-- What a reader puts on the heap is only added. -/
theorem Answers.appends (h : s.Answers cs s') {g : Grammar} {text : String} {n : Nat}
    {journal : Option (List Event)}
    (hs' : s' = { s.withDraft ((Reader.ofText text s.draft).after g n).draft with journal }) :
    s.Appends s' where
  heap := h.grows.exists_append
  store := h.store
  ops := by rw [hs']; rfl
  atoms := h.atoms
  names := by
    rw [hs']
    exact Reader.addsNames_after g n (.ofText text s.draft)

/-! ## What is seen of old terms -/

theorem Answers.tree?_eq (h : s.Answers cs s') (hs : s.Sound) (hc : s.heap.IsTerm s.atoms.size c) :
    s'.tree? c = s.tree? c :=
  h.grows.resolve?_eq h.atoms hs.store.heap h.sound.store.heap h.atoms.size_le hc

theorem Answers.equal?_eq (h : s.Answers cs s') (hs : s.Sound) (hc : s.heap.IsTerm s.atoms.size c)
    (hd : s.heap.IsTerm s.atoms.size d) : s'.equal? c d = s.equal? c d :=
  h.grows.equal? hs.store.heap h.sound.store.heap h.atoms.size_le hc hd

theorem Appends.varName?_eq (h : s.Appends s') (hg : s.heap.Grows s'.heap) (hs : s.Sound)
    (hc : s.heap.IsTerm s.atoms.size c) : s'.varName? c = s.varName? c := by
  obtain ⟨d, hd, hterm, -⟩ := Heap.exists_deref? hs.store.heap hc
  have hd' : s'.heap.deref? c = some d := (hg.deref? hs.store.heap hc).trans hd
  have hd : s.heap.deref? c = some d := hd
  rw [varName?, varName?, hd, hd']
  cases d with
  | ref i => exact congrArg some (h.names.lookup_eq hterm.1)
  | _ => rfl

end Session

namespace Workspace

variable {w : Workspace}

/-- Reading only adds. Whether it succeeds or fails, reading a clause or all clauses of a text leaves all
slots, the trail, the pending pairs, the boundary and the operators as they are, and adds slots, atoms
and names of new variables. Every atom keeps its number and its name, every variable its name or that it
has none; and every term has the same tree as before, the same name if it is a variable, and is equal to
the same terms. -/
theorem reading_appends (hw : w.Reachable) (text : String) :
    ∀ s' ∈ [(w.session.parse text).2, (w.session.parseAll text).2],
      w.session.Appends s' ∧
        (∀ name a, w.session.atoms.find? name = some a → s'.atoms.find? name = some a) ∧
        (∀ a < w.session.atoms.size, s'.atoms.name a = w.session.atoms.name a) ∧
        (∀ i < w.heap.size, s'.names.lookup i = w.session.names.lookup i) ∧
        ∀ c ∈ w.handles, s'.tree? c = w.session.tree? c ∧ s'.varName? c = w.session.varName? c ∧
          ∀ d ∈ w.handles, s'.equal? c d = w.session.equal? c d := by
  have hs := hw.sound
  have hreading : ∀ s' ∈ [(w.session.parse text).2, (w.session.parseAll text).2],
      (∃ cs, w.session.Answers cs s') ∧ w.session.Appends s' := by
    intro s' hs'
    rcases List.mem_pair.1 hs' with rfl | rfl
    · have h := Session.answers_parse hs.session text
      obtain ⟨n, journal, hparse⟩ := w.session.exists_after_parse text
      exact ⟨⟨_, h⟩, h.appends hparse⟩
    · have h := Session.answers_parseAll hs.session text
      obtain ⟨n, journal, hparse⟩ := w.session.exists_after_parseAll text
      exact ⟨⟨_, h⟩, h.appends hparse⟩
  intro s' hs'
  obtain ⟨⟨cs, h⟩, happends⟩ := hreading s' hs'
  refine ⟨happends, fun name a => h.atoms.find?_eq_some, fun a => h.atoms.name_eq,
    fun i => happends.names.lookup_eq, fun c hc => ⟨?_, ?_, fun d hd => ?_⟩⟩
  · exact h.tree?_eq hs.session (hs.handles c hc)
  · exact happends.varName?_eq h.grows hs.session (hs.handles c hc)
  · exact h.equal?_eq hs.session (hs.handles c hc) (hs.handles d hd)

/-- One clause has been read, and its term and its variable were handed out. -/
def oneClause : Workspace :=
  let heap : Heap := ⟨#[.ref 0, .con ⟨9, 1⟩, .ref 0]⟩
  let atoms : AtomTable := ⟨⟨(Atom.pinned ++ ["p"]).toArray⟩⟩
  ⟨{ store := ⟨heap, {}, [], 0⟩, atoms, names := [(0, "X")] }, [.ref 0, .str 1], [], heap⟩

theorem run?_oneClause :
    blank.run? [.request (.parse "p(X)."), .request (.arg (.str 1) 0)] = some oneClause := by
  decide +kernel

/-- A text has an error in its second clause, when a part of a list has been read. The term of an earlier
text is as it was, and so is its variable, though the text has a variable of the same name. -/
theorem reading_appends_error : ∃ w, blank.run? [.request (.parse "p(X)."), .request (.arg (.str 1) 0)] =
      some w ∧ w.Reachable ∧ (w.session.parseAll "q(Y). r(X, [a|").1.isOk = false ∧
    (w.session.parseAll "q(Y). r(X, [a|").2.heap.size = w.heap.size + 4 ∧
    (w.session.parseAll "q(Y). r(X, [a|").2.tree? (.str 1) = some (.compound "p" [.var 0]) ∧
    (w.session.parseAll "q(Y). r(X, [a|").2.varName? (.ref 0) = some (some "X") := by
  have hw : oneClause.Reachable := reachable_blank.run _ run?_oneClause
  obtain ⟨-, -, -, -, hseen⟩ := reading_appends hw "q(Y). r(X, [a|" _
    (List.mem_pair.2 (.inr rfl))
  obtain ⟨htree, -⟩ := hseen (.str 1) (by decide)
  obtain ⟨-, hname, -⟩ := hseen (.ref 0) (by decide)
  exact ⟨oneClause, run?_oneClause, hw, by decide +kernel, by decide +kernel, htree.trans rfl,
    hname.trans rfl⟩

end Workspace

end PrologTerms
