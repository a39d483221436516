import PrologTerms.Proofs.Session.RoundTrip

/-!
# Reading back a listing

With any legible table of operators, a session that writes clauses one below the other reads them as
variants of the terms they were written for, and writes the new terms as it wrote the old ones: the
variables of every clause are known by the names that they have in its text.
-/

namespace PrologTerms

namespace Draft

variable {d d' : Draft} {t : Tree} {c : Cell} {ν : Address → String}

/-- The term has the tree with other variables, which are known by the given names. -/
def Shows (d : Draft) (ν : Address → String) (t : Tree) (c : Cell) : Prop :=
  ∃ ρ : Address → Address, (∀ i ∈ t.vars, ∀ j ∈ t.vars, ρ i = ρ j → i = j) ∧
    d.heap.resolve? d.atoms c = some (t.rename ρ) ∧
      ∀ i ∈ t.vars, ρ i < d.heap.size ∧ d.names.lookup (ρ i) = some (ν i)

/-- Old variables are known as before. -/
def KeepsKnown (d d' : Draft) : Prop :=
  ∀ i : Nat, i < d.heap.size → d'.names.lookup i = d.names.lookup i

theorem Shows.grow (h : d.Shows ν t c) (hd : d.Sound) (hc : d.heap.IsTerm d.atoms.size c)
    (hg : d.Grows d') (hk : d.KeepsKnown d') : d'.Shows ν t c := by
  obtain ⟨ρ, hρ, htree, hnames⟩ := h
  refine ⟨ρ, hρ, hg.heap.resolve? hg.atoms hd.heap hc htree, fun i hi => ?_⟩
  obtain ⟨hlt, hname⟩ := hnames i hi
  exact ⟨Nat.lt_of_lt_of_le hlt hg.heap.size_le, (hk _ hlt).trans hname⟩

/-- The term of a clause has the tree that the clause was written for, with other variables. -/
theorem shows_addClause (hd : d.Sound) (hne : ∀ i, ν i ≠ "_")
    (hν : ∀ i ∈ t.vars, ∀ j ∈ t.vars, ν i = ν j → i = j) {e : Expr} (he : e.WellFormed)
    (ht : e.Denotes (Given ν) t) : ∃ c d', d.addClause (.ok e) = (.ok c, d') ∧
      d'.Shows ν t c ∧ d.KeepsKnown d' := by
  let d₀ : Draft := { d with scope := [] }
  have hd₀ : d₀.Sound := ⟨hd.heap, hd.atoms, hd.names, by simp [d₀]⟩
  have hb := builds_build hd₀ (scoped_of_nil rfl) e he
  obtain ⟨u, hu, hdenotes, -⟩ := hb.tree
  obtain ⟨ρ, hρ, rfl, hlookup⟩ := hb.scope.exists_renaming hne hν ht hdenotes
  refine ⟨(d₀.build e).1, (d₀.build e).2, rfl, ⟨ρ, hρ, hu, fun i hi => ?_⟩, hb.fresh.known⟩
  obtain ⟨j, hj, hget⟩ := hb.scope.unbound _ _ (hlookup i hi)
  cases hj
  exact ⟨Arena.lt_size_of_get? hget, hb.scope.known _ _ (hlookup i hi)⟩

/-- The terms of several clauses have the trees that the clauses were written for. -/
theorem shows_addClauses (hd : d.Sound) {ν : Tree → Address → String} (hne : ∀ t i, ν t i ≠ "_")
    (hν : ∀ t : Tree, ∀ i ∈ t.vars, ∀ j ∈ t.vars, ν t i = ν t j → i = j) {es : List Expr}
    {ts : List Tree} (hes : ∀ e ∈ es, e.WellFormed)
    (ht : List.Forall₂ (fun e t => e.Denotes (Given (ν t)) t) es ts) :
    ∃ cs d', d.addClauses (es.map .ok) = (cs.map .ok, d') ∧ d.KeepsKnown d' ∧
      List.Forall₂ (fun t c => d'.Shows (ν t) t c) ts cs := by
  induction ht generalizing d with
  | nil => exact ⟨[], d, rfl, fun _ _ => rfl, .nil⟩
  | @cons e t es ts he _ ih =>
    have hwf := hes e List.mem_cons_self
    obtain ⟨hl₁, hc⟩ := @sound_addClause _ hd (.ok e) hwf
    obtain ⟨c, d₁, h₁, hshows, hk₁⟩ := shows_addClause hd (hne t) (hν t) hwf he
    rw [h₁] at hl₁ hc
    have hes' : ∀ e ∈ es, e.WellFormed := fun e' he' => hes e' (List.mem_cons_of_mem e he')
    have hvalues := ReadResult.valueWellFormed_of_mem_map_ok hes'
    obtain ⟨hl₂, -⟩ := sound_addClauses hl₁.1 _ hvalues
    obtain ⟨cs, d₂, h₂, hk₂, hall⟩ := ih hl₁.1 hes'
    rw [h₂] at hl₂
    refine ⟨c :: cs, d₂, ?_, fun i hi => ?_, .cons ?_ hall⟩
    · rw [List.map_cons, addClauses, h₁]
      dsimp only
      rw [h₂]
      rfl
    · rw [hk₂ i (Nat.lt_of_lt_of_le hi hl₁.2.heap.size_le), hk₁ i hi]
    · exact hshows.grow hl₁.1 (hc c rfl) hl₂.2 hk₂

end Draft

/-! ## Listings -/

namespace Session

variable {s : Session} {ts : List Tree} {cs : List Cell}

/-- The clauses of several terms, each of them on a line of its own. -/
def listing? (s : Session) (cs : List Cell) : Option String :=
  (cs.mapM s.clauseText?).map fun texts => String.join (texts.map (· ++ "\n"))

theorem toList_join_lines (texts : List String) :
    (String.join (texts.map (· ++ "\n"))).toList = texts.flatMap fun s => s.toList ++ ['\n'] := by
  rw [String.toList_join, List.flatMap_map]
  refine List.flatMap_congr fun s _ => ?_
  rw [String.toList_append]
  rfl

theorem listing?_eq (h : List.Forall₂ (fun c t => s.tree? c = some t) cs ts) :
    s.listing? cs = some (String.ofList (Tree.linesOf s.ops s.names ts)) := by
  have htexts : cs.mapM s.clauseText? = some (ts.map (Tree.clauseText s.ops s.names)) := by
    induction h with
    | nil => rfl
    | cons hc _ ih => simp [List.mapM_cons, clauseText?, hc, ih]
  rw [listing?, htexts, Option.map_some, Option.some.injEq, ← String.toList_inj, toList_join_lines,
    List.flatMap_map, String.toList_ofList]
  rfl

/-- The second session has a variant of the term, which it writes as the first one writes the term. -/
structure Reproduces (s : Session) (c : Cell) (s' : Session) (d : Cell) : Prop where
  /-- The trees are variants. -/
  variant : ∃ t u, s.tree? c = some t ∧ s'.tree? d = some u ∧ t.Variant u
  /-- The terms have the same text. -/
  text : s'.text? d = s.text? c
  /-- So they have as clauses. -/
  clauseText : s'.clauseText? d = s.clauseText? c

/-- Only the text of a term decides what it looks like as a clause. -/
theorem reproduces_of_text {s' : Session} {c d : Cell} {t u : Tree} (ht : s.tree? c = some t)
    (hu : s'.tree? d = some u) (hvariant : t.Variant u)
    (htext : u.text s'.ops s'.names = t.text s.ops s.names) : s.Reproduces c s' d := by
  refine ⟨⟨t, u, ht, hu, hvariant⟩, ?_, ?_⟩
  · rw [text?, text?, ht, hu, Option.map_some, Option.map_some, htext]
  · rw [clauseText?, clauseText?, ht, hu, Option.map_some, Option.map_some, Tree.clauseText, htext]
    rfl

/-- A listing of clear terms is read as terms that reproduce them. -/
theorem parseAll_linesOf (hs : s.Sound) (hr : s.ops.Regular)
    (hts : List.Forall₂ (fun c t => s.tree? c = some t) cs ts)
    (hclear : ∀ t ∈ ts, t.Writable ∧ t.Clear s.ops) : ∃ ds s',
      s.parseAll (String.ofList (Tree.linesOf s.ops s.names ts)) = (.ok ds, s') ∧
        List.Forall₂ (fun c d => s.Reproduces c s' d) cs ds := by
  let text := String.ofList (Tree.linesOf s.ops s.names ts)
  have hlexes := lexes_ofText text
  rw [String.toList_ofList] at hlexes
  obtain ⟨es, hes, hdenotes⟩ := clauses_linesOf (g := s.ops.grammar text) hr hs.names hclear hlexes
  have hwf : ∀ e ∈ es, e.WellFormed := by
    intro e he
    have hmem : .ok e ∈ (s.ops.grammar text).clauses (.ofText text) := by
      rw [hes]
      exact List.mem_map_of_mem he
    exact Grammar.wellFormed_of_mem_clauses (LexemeStream.varNamed_ofText text) _ hmem
  have hnames := Tree.names_givenName hs.names s.ops
  obtain ⟨ds, d, hadd, -, hshows⟩ := Draft.shows_addClauses (sound_draft hs)
    (fun t => (hnames t).1) (fun t => (hnames t).2.inj) hwf hdenotes
  obtain ⟨ds', journal, hds, hparse⟩ := parseAll_of_ok hes
  rw [hadd] at hds hparse
  obtain rfl := map_ok_injective hds
  refine ⟨ds, _, hparse, forall₂_comp hts hshows fun c t d hc hshow => ?_⟩
  obtain ⟨ρ, hρ, htree, hknown⟩ := hshow
  refine reproduces_of_text hc htree ⟨ρ, hρ, rfl⟩ ?_
  exact Tree.text_rename hs.names fun i hi => (hknown i hi).2

end Session

namespace Workspace

variable {w : Workspace} {cs : List Cell}

/-- If the operators are legible, and if all terms that have the name of an operator for places between
or behind operands have its operands, then the clauses of the terms, one below the other, are read as
variants of these terms, in their order, whose texts are those of the old terms. -/
theorem parseAll_listing (hw : w.Reachable) (hops : w.session.ops.Legible)
    (hcs : ∀ c ∈ cs, c ∈ w.handles ∧
      ∃ t, w.session.tree? c = some t ∧ t.IsPlain ∧ t.TrailingInForm w.session.ops) :
    ∃ text ds s', w.session.listing? cs = some text ∧ w.session.parseAll text = (.ok ds, s') ∧
      List.Forall₂ (fun c d => w.session.Reproduces c s' d) cs ds := by
  have hs := hw.sound
  have hr : w.session.ops.Regular := ⟨hops, hw.inRange⟩
  have hclear : ∀ c ∈ cs, ∃ t, w.session.tree? c = some t ∧ t.Writable ∧ t.Clear w.session.ops := by
    intro c hc
    obtain ⟨hmem, t, ht, hplain, hform⟩ := hcs c hc
    have hwr := Heap.writable_of_resolveWithin hs.session.store.heap (hs.handles c hmem) ht hplain
    exact ⟨t, ht, hwr, hform.clear hwr⟩
  obtain ⟨ts, hts⟩ := exists_forall₂ hclear
  have htree : List.Forall₂ (fun c t => w.session.tree? c = some t) cs ts := hts.imp fun _ _ h => h.1
  have hclear : ∀ t ∈ ts, t.Writable ∧ t.Clear w.session.ops := by
    intro t ht
    obtain ⟨c, -, hc⟩ := exists_of_mem_of_forall₂ hts ht
    exact hc.2
  obtain ⟨ds, s', hparse, hall⟩ := Session.parseAll_linesOf hs.session hr htree hclear
  exact ⟨_, ds, s', Session.listing?_eq htree, hparse, hall⟩

/-- Two clauses with operators of one's own are read back. -/
theorem parseAll_listing_since : ∃ w text ds s', blank.run? [.request (.addOp "since" 700 .xfx),
      .request (.addOp "old" 100 .xf), .request .var, .request (.atom "a"),
      .request (.term "old" [.con ⟨9, 0⟩]), .request (.term "since" [.ref 0, .str 1]),
      .request (.term "old" [.ref 0])] = some w ∧
    w.session.listing? [.str 3, .str 6] = some text ∧ text = "_G0 since a old.\n_G0 old.\n" ∧
      w.session.parseAll text = (.ok ds, s') ∧
        List.Forall₂ (fun c d => w.session.Reproduces c s' d) [.str 3, .str 6] ds := by
  let heap : Heap := ⟨#[.ref 0, .con ⟨10, 1⟩, .con ⟨9, 0⟩, .con ⟨11, 2⟩, .ref 0, .str 1, .con ⟨10, 1⟩,
    .ref 0]⟩
  let atoms : AtomTable := ⟨⟨(Atom.pinned ++ ["a", "old", "since"]).toArray⟩⟩
  let ops := (OpTable.standard.add "since" 700 .xfx).add "old" 100 .xf
  let w : Workspace := ⟨{ store := ⟨heap, {}, [], 0⟩, atoms, ops },
    [.str 6, .str 3, .str 1, .con ⟨9, 0⟩, .ref 0], [], heap⟩
  have hrun : blank.run? [.request (.addOp "since" 700 .xfx), .request (.addOp "old" 100 .xf),
      .request .var, .request (.atom "a"), .request (.term "old" [.con ⟨9, 0⟩]),
      .request (.term "since" [.ref 0, .str 1]), .request (.term "old" [.ref 0])] = some w := by
    decide +kernel
  have hlegible : w.session.ops.Legible := OpTable.legible_of_entries (by decide +kernel)
  have hcs : ∀ c ∈ [Cell.str 3, .str 6], c ∈ w.handles ∧
      ∃ t, w.session.tree? c = some t ∧ t.IsPlain ∧ t.TrailingInForm w.session.ops := by
    intro c hc
    rcases List.mem_cons.1 hc with rfl | hc
    · exact ⟨by decide, .compound "since" [.var 0, .compound "old" [.atom "a"]], rfl, by decide,
        by decide +kernel⟩
    · rw [List.mem_singleton] at hc
      subst hc
      exact ⟨by decide, .compound "old" [.var 0], rfl, by decide, by decide +kernel⟩
  obtain ⟨text, ds, s', htext, hparse, hall⟩ :=
    parseAll_listing (reachable_blank.run _ hrun) hlegible hcs
  refine ⟨w, text, ds, s', hrun, htext, ?_, hparse, hall⟩
  have hvalue : w.session.listing? [.str 3, .str 6] = some "_G0 since a old.\n_G0 old.\n" := by
    decide +kernel
  rw [hvalue] at htext
  exact (Option.some.inj htext).symm

end Workspace

end PrologTerms
