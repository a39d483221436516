import PrologTerms.Proofs.Writing.Writer

/-!
# Writing meets terms only

All that is still to be written is about terms of the heap and about atoms with names, and it stays so
from one step to the next. So there is always a next step until all is written, whether or not the tree
of the term is finite.
-/

namespace PrologTerms

namespace Writer

variable {w : Writer} {s s' : WriteState} {t : Task} {ts : List Task} {c : Cell} {f : Functor}
  {args : List Cell}

/-- What the task is about makes sense. -/
def Accepts (w : Writer) : Task → Prop
  | .term c _ _ => w.heap.IsTerm w.atoms.size c
  | .tail c => w.heap.IsTerm w.atoms.size c
  | .atom a => a < w.atoms.size
  | .text _ => True

/-- All that is still to be written makes sense. -/
def AcceptsAll (w : Writer) (s : WriteState) : Prop := ∀ t ∈ s.tasks, w.Accepts t

/-! ## One task -/

theorem AcceptsAll.put (h : w.AcceptsAll s) (cs : List Char) : w.AcceptsAll (s.put cs) := h

theorem AcceptsAll.push (h : w.AcceptsAll s) (hts : ∀ t ∈ ts, w.Accepts t) : w.AcceptsAll (s.push ts) :=
  List.forall_mem_append.2 ⟨hts, h⟩

theorem AcceptsAll.openFor (h : w.AcceptsAll s) (priority max : Nat) :
    w.AcceptsAll (s.openFor priority max) := by
  rw [WriteState.openFor]
  split
  · exact (h.put _).push (by simp [Accepts])
  · exact h

/-- What is left to be written of an operation is the operator and the operands. -/
theorem AcceptsAll.operator? (h : w.AcceptsAll s) (hf : f.name < w.atoms.size)
    (hargs : ∀ a ∈ args, w.heap.IsTerm w.atoms.size a) {max : Nat}
    (hop : w.operator? f args max s = some s') : w.AcceptsAll s' := by
  match args, hargs, hop with
  | [a, b], hargs, hop =>
    obtain ⟨d, -, rfl⟩ := Option.map_eq_some_iff.1 hop
    have ha := hargs a (by simp)
    have hb := hargs b (by simp)
    refine (h.openFor _ _).push ?_
    split <;> simp [Accepts, ha, hb, hf]
  | [a], hargs, hop =>
    have ha := hargs a (by simp)
    simp only [Writer.operator?] at hop
    split at hop
    · cases hop
      exact ((h.openFor _ _).put _).push (by simp [Accepts, ha])
    · cases hop
      exact (h.openFor _ _).push (by simp [Accepts, ha, hf])
    · cases hop

theorem accepts_argumentTasks (hargs : ∀ a ∈ args, w.heap.IsTerm w.atoms.size a) :
    ∀ t ∈ argumentTasks args, w.Accepts t := by
  induction args with
  | nil => exact fun t ht => absurd ht List.not_mem_nil
  | cons a args ih =>
    obtain ⟨ha, hargs⟩ := List.forall_mem_cons.1 hargs
    have hrest := ih hargs
    cases args with
    | nil => exact List.forall_mem_cons.2 ⟨ha, fun t ht => absurd ht List.not_mem_nil⟩
    | cons => exact List.forall_mem_cons.2 ⟨ha, List.forall_mem_cons.2 ⟨trivial, hrest⟩⟩

theorem AcceptsAll.writeCall (h : w.AcceptsAll s) (hargs : ∀ a ∈ args, w.heap.IsTerm w.atoms.size a) :
    w.AcceptsAll (w.writeCall f args s) := by
  refine (h.put _).push (List.forall_mem_append.2 ⟨accepts_argumentTasks hargs, ?_⟩)
  simp [Accepts]

/-- A compound term with all of its arguments is written. -/
theorem AcceptsAll.writeCompound? (h : w.AcceptsAll s) (hf : f.name < w.atoms.size)
    (hlen : args.length = f.arity) (hargs : ∀ a ∈ args, w.heap.IsTerm w.atoms.size a) (max : Nat) :
    ∃ s', w.writeCompound? f args max s = some s' ∧ w.AcceptsAll s' := by
  unfold Writer.writeCompound?
  split
  · next e =>
    subst e
    obtain ⟨a, b, rfl⟩ := List.length_eq_two.1 hlen
    have ha := hargs a (by simp)
    have hb := hargs b (by simp)
    exact ⟨_, rfl, (h.put _).push (by simp [Accepts, ha, hb])⟩
  · split
    · next e =>
      subst e
      obtain ⟨a, rfl⟩ := List.length_eq_one_iff.1 hlen
      have ha := hargs a (by simp)
      exact ⟨_, rfl, (h.put _).push (by simp [Accepts, ha])⟩
    · refine ⟨_, rfl, ?_⟩
      cases hop : w.operator? f args max s with
      | none => exact h.writeCall hargs
      | some s' => exact h.operator? hf hargs hop

/-- A term is written, whatever its form. -/
theorem AcceptsAll.term (hw : w.Sound) (h : w.AcceptsAll s) (hc : w.heap.IsTerm w.atoms.size c)
    (max : Nat) (operand : Bool) :
    ∃ s', w.perform? s (.term c max operand) = some s' ∧ w.AcceptsAll s' := by
  obtain ⟨v, hv, hd, hfits⟩ := Heap.exists_view? hw.heap hc
  cases v with
  | compound i f args =>
    rw [perform?_compound hv]
    exact h.writeCompound? (hfits.name_lt hw.heap rfl) hfits.2.2.1 hfits.isTerm_args max
  | _ =>
    simp only [perform?, writeTerm?, hd, View.cell]
    exact ⟨_, rfl, h⟩

/-- So is the rest of a list. -/
theorem AcceptsAll.tail (hw : w.Sound) (h : w.AcceptsAll s) (hc : w.heap.IsTerm w.atoms.size c) :
    ∃ s', w.perform? s (.tail c) = some s' ∧ w.AcceptsAll s' := by
  obtain ⟨v, hv, -, hfits⟩ := Heap.exists_view? hw.heap hc
  rw [perform?_tail hw hc hv]
  split
  · next hpair =>
    cases v with
    | compound i f args =>
      obtain rfl : f = .dot := eq_of_beq hpair
      obtain ⟨a, b, rfl⟩ := List.length_eq_two.1 hfits.2.2.1
      have ha := hfits.isTerm_args a (by simp [View.args])
      have hb := hfits.isTerm_args b (by simp [View.args])
      simp only [View.cell, Heap.arg?_cell hfits]
      exact ⟨_, rfl, (h.put _).push (by simp [Accepts, ha, hb])⟩
    | _ => cases hpair
  · split
    · exact ⟨s, rfl, h⟩
    · refine ⟨_, rfl, (h.put _).push ?_⟩
      simpa [Accepts] using hfits.isTerm_cell

/-! ## One step, and all of them -/

/-- A step leads on, or the text is complete. -/
theorem step_spec (hw : w.Sound) (h : w.AcceptsAll s) :
    (∃ s', w.step s = .more s' ∧ w.AcceptsAll s') ∨ w.step s = .done (some (s.out, s.given)) := by
  obtain ⟨tasks, given, out⟩ := s
  cases tasks with
  | nil => exact .inr rfl
  | cons t tasks =>
    obtain ⟨ht, htasks⟩ := List.forall_mem_cons.1 h
    have hrest : w.AcceptsAll ⟨tasks, given, out⟩ := htasks
    have hperform : ∃ s', w.perform? ⟨tasks, given, out⟩ t = some s' ∧ w.AcceptsAll s' := by
      cases t with
      | term c max operand => exact hrest.term hw ht max operand
      | tail c => exact hrest.tail hw ht
      | atom a => exact ⟨_, rfl, hrest⟩
      | text cs => exact ⟨_, rfl, hrest⟩
    obtain ⟨s', hs', hall⟩ := hperform
    refine .inl ⟨s', ?_, hall⟩
    simp only [step, hs']

theorem acceptsAll_steps (hw : w.Sound) (hc : w.heap.IsTerm w.atoms.size c) {given : Naming} {n : Nat}
    (h : Iteration.Steps w.step n (start given c) s) : w.AcceptsAll s := by
  refine h.preserves (fun s s' hs hstep => ?_) fun t ht => ?_
  · rcases step_spec hw hs with ⟨s'', hmore, hall⟩ | hdone
    · rw [hmore] at hstep
      cases hstep
      exact hall
    · rw [hdone] at hstep
      cases hstep
  · rw [List.mem_singleton.1 ht]
    exact hc

end Writer

end PrologTerms
