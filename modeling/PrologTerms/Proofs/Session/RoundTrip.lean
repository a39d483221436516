import PrologTerms.Proofs.Heap.Parts
import PrologTerms.Proofs.Reading.Build
import PrologTerms.Proofs.Session.Reading
import PrologTerms.Proofs.Session.WellFormed
import PrologTerms.Proofs.Writing.Clause

/-!
# Reading back what was written

The clause that a session writes for a term is read, in the same session, as a variant of the term's
tree. There is one exception. A prefix operator is taken for an atom if the next name can only be an
operator behind an operand, and this is not prevented where that name is the functor of the operand:
`- =(b)` is written for a minus sign and its operand, and read as an equation.
-/

namespace PrologTerms

/-- The renaming of variables that leads from the tree that was written to a tree that is read, if
names mean what they were given for. -/
theorem Draft.Scoped.exists_renaming {d : Draft} (hd : d.Scoped) {naming : Address → String}
    {t u : Tree} (hne : ∀ i, naming i ≠ "_")
    (hinj : ∀ i ∈ t.vars, ∀ j ∈ t.vars, naming i = naming j → i = j) {e : Expr}
    (ht : e.Denotes (Given naming) t) (hu : e.Denotes d.Means u) : ∃ ρ : Address → Address,
      (∀ i ∈ t.vars, ∀ j ∈ t.vars, ρ i = ρ j → i = j) ∧ (u = t.subst fun i => .var (ρ i)) ∧
        ∀ i ∈ t.vars, d.scope.lookup (naming i) = some (.ref (ρ i)) := by
  have hvalue : ∀ i, ∃ k, ∀ j, d.scope.lookup (naming i) = some (.ref j) → j = k := by
    intro i
    by_cases h : ∃ k, d.scope.lookup (naming i) = some (.ref k)
    · obtain ⟨k, hk⟩ := h
      refine ⟨k, fun j hj => ?_⟩
      rw [hk, Option.some.injEq, Cell.ref.injEq] at hj
      exact hj.symm
    · exact ⟨0, fun j hj => absurd ⟨j, hj⟩ h⟩
  choose ρ hvalue using hvalue
  have hρ : ∀ x i j, Given naming x i → d.Means x j → j = ρ i := by
    rintro x i j rfl hm
    exact hvalue i j (hm (hne i))
  obtain ⟨hsubst, hmeans⟩ := ht.eq_subst hρ hu
  have hlookup : ∀ i ∈ t.vars, d.scope.lookup (naming i) = some (.ref (ρ i)) := by
    intro i hi
    obtain ⟨x, rfl, hx⟩ := hmeans i hi
    exact hx (hne i)
  refine ⟨ρ, fun i hi j hj heq => ?_, hsubst, hlookup⟩
  have hx := hlookup i hi
  rw [heq] at hx
  exact hinj i hi j hj (hd.inj _ _ _ hx (hlookup j hj))

namespace Session

variable {s : Session} {text : String} {c : Cell} {t : Tree}

/-- The text is read as a clause whose term has a variant of the tree. -/
def Rereads (s : Session) (text : String) (t : Tree) : Prop :=
  ∃ c s' t', s.parse text = (.ok c, s') ∧ s'.tree? c = some t' ∧ t.Variant t'

/-- A term is read back from its clause if and only if it is clear. -/
theorem rereads_iff (hs : s.Sound) (hr : s.ops.Regular) (hc : s.heap.IsTerm s.atoms.size c)
    (ht : s.tree? c = some t) (hp : t.IsPlain) :
    s.Rereads (t.clauseText s.ops s.names) t ↔ t.Clear s.ops := by
  have hw : t.Writable := Heap.writable_of_resolveWithin hs.store.heap hc ht hp
  obtain ⟨hne, hnames⟩ := Tree.names_givenName hs.names s.ops t
  obtain ⟨r, hclause, hclear, hunclear⟩ := clause?_clauseText hr hs.names hw
  have hval := (Grammar.wellFormed_clause? (LexemeStream.varNamed_ofText _) hclause).value
  have hbuilds : ∀ e, r.value = .ok e → s.draft.Builds e (s.draft.build e).1 (s.draft.build e).2 := by
    intro e he
    rw [he] at hval
    exact Draft.builds_build (sound_draft hs) (Draft.scoped_of_nil rfl) e hval
  constructor
  · rintro ⟨c', s', t', hparse, ht', hvariant⟩
    by_contra hnot
    cases hv : r.value with
    | error f =>
      have herror := parse_of_error hclause hv
      rw [hparse] at herror
      cases herror
    | ok e =>
      obtain ⟨journal, hparse'⟩ := parse_of_ok hclause hv
      rw [hparse, Prod.mk.injEq, Except.ok.injEq] at hparse'
      obtain ⟨rfl, rfl⟩ := hparse'
      obtain ⟨u, hu, hdenotes, -⟩ := (hbuilds e hv).tree
      obtain rfl : u = t' := Option.some.inj (hu.symm.trans ht')
      have hlt := hunclear hnot e hv
      rw [hdenotes.leaves_eq, hvariant.leaves_eq] at hlt
      exact Nat.lt_irrefl _ hlt
  · intro h
    obtain ⟨e, hv, he⟩ := hclear h
    obtain ⟨journal, hparse⟩ := parse_of_ok hclause hv
    obtain ⟨u, hu, hdenotes, -⟩ := (hbuilds e hv).tree
    obtain ⟨ρ, hρ, hsubst, -⟩ := (hbuilds e hv).scope.exists_renaming hne hnames.inj he hdenotes
    exact ⟨_, _, u, hparse, hu, ρ, hρ, hsubst⟩

end Session

namespace Workspace

variable {w : Workspace}

/-- With the standard operators, the clause that is written for a term is read as a variant of the
term's tree, if and only if no prefix operator in the tree is in front of a functor that is an operator
for other places only. -/
theorem rereads_clauseText_iff (hw : w.Reachable)
    (hops : ∀ name x, w.session.ops.find? name x = OpTable.standard.find? name x) {c : Cell}
    (hc : c ∈ w.handles) {t : Tree} (ht : w.session.tree? c = some t) (hp : t.IsPlain) :
    ∃ text, w.session.clauseText? c = some text ∧
      (w.session.Rereads text t ↔ t.Clear w.session.ops) := by
  have hs := hw.sound
  have hr : w.session.ops.Regular := OpTable.regular_standard.congr hops
  refine ⟨t.clauseText w.session.ops w.session.names, ?_, ?_⟩
  · rw [Session.clauseText?, ht]
    rfl
  · exact Session.rereads_iff hs.session hr (hs.handles c hc) ht hp

/-- A minus sign in front of a variable is read back. -/
theorem rereads_minus_var : ∃ w text, blank.run? [.request .var, .request (.term "-" [.ref 0])] =
    some w ∧ w.session.clauseText? (.str 1) = some text ∧
      w.session.Rereads text (.compound "-" [.var 0]) := by
  let heap : Heap := ⟨#[.ref 0, .con ⟨4, 1⟩, .ref 0]⟩
  let w : Workspace := ⟨{ store := ⟨heap, {}, [], 0⟩ }, [.str 1, .ref 0], [], heap⟩
  have hrun : blank.run? [.request .var, .request (.term "-" [.ref 0])] = some w := by
    decide +kernel
  obtain ⟨text, htext, hiff⟩ := rereads_clauseText_iff (reachable_blank.run _ hrun)
    (fun _ _ => rfl) (c := .str 1) (by decide) (t := .compound "-" [.var 0]) rfl (by decide)
  exact ⟨w, text, hrun, htext, hiff.2 (by decide +kernel)⟩

/-- A minus sign in front of an equality sign with one argument is not. -/
theorem exists_not_rereads : ∃ w c t text, Reachable w ∧ w.session.ops = .standard ∧ c ∈ w.handles ∧
    w.session.tree? c = some t ∧ t.IsPlain ∧ w.session.clauseText? c = some text ∧
      ¬ w.session.Rereads text t := by
  let heap : Heap := ⟨#[.con ⟨10, 1⟩, .con ⟨9, 0⟩, .con ⟨4, 1⟩, .str 0]⟩
  let atoms : AtomTable := ⟨⟨(Atom.pinned ++ ["b", "="]).toArray⟩⟩
  let w : Workspace :=
    ⟨{ store := ⟨heap, {}, [], 0⟩, atoms }, [.str 2, .str 0, .con ⟨9, 0⟩], [], heap⟩
  have hrun : blank.run? [.request (.atom "b"), .request (.term "=" [.con ⟨9, 0⟩]),
      .request (.term "-" [.str 0])] = some w := by decide +kernel
  have hw : w.Reachable := reachable_blank.run _ hrun
  have hmem : .str 2 ∈ w.handles := by decide
  let t : Tree := .compound "-" [.compound "=" [.atom "b"]]
  have htree : w.session.tree? (.str 2) = some t := rfl
  have hplain : t.IsPlain := by decide
  have hiff := Session.rereads_iff hw.sound.session OpTable.regular_standard
    (hw.sound.handles _ hmem) htree hplain
  have hunclear : ¬ t.Clear w.session.ops := by decide +kernel
  refine ⟨w, .str 2, t, _, hw, rfl, hmem, htree, hplain, ?_, fun h => hunclear (hiff.1 h)⟩
  rw [Session.clauseText?, htree]
  rfl

end Workspace

end PrologTerms
