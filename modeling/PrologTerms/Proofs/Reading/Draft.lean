import PrologTerms.Proofs.Atom
import PrologTerms.Proofs.Heap.WellFormed
import PrologTerms.Proofs.Reading.Expr
import PrologTerms.Reading.Draft

/-!
# Putting terms on the heap keeps it in order

What is read only adds to the heap and to the table of atoms, and what it adds is well-formed, also if
an error ends the reading.
-/

namespace PrologTerms

/-- The names are those of variables, and none of them is that of a variable without a name. -/
def SourceNames.WellFormed (names : SourceNames) : Prop :=
  ∀ p ∈ names, IsVarName p.2 ∧ p.2 ≠ "_"

namespace Draft

/-- All that a draft has collected is in order. -/
structure Sound (d : Draft) : Prop where
  /-- The heap is well-formed. -/
  heap : d.heap.WellFormed d.atoms.size
  /-- So is the table of atoms. -/
  atoms : d.atoms.WellFormed
  /-- Variables have names of variables. -/
  names : d.names.WellFormed
  /-- The variables of the clause are terms. -/
  scope : ∀ p ∈ d.scope, d.heap.IsTerm d.atoms.size p.2

/-- The draft `d'` has all that `d` has, and maybe more. -/
structure Grows (d d' : Draft) : Prop where
  /-- Slots are only added. -/
  heap : d.heap.Grows d'.heap
  /-- Atoms are only added. -/
  atoms : d.atoms.Extends d'.atoms

variable {d d' d'' : Draft}

theorem Grows.refl (d : Draft) : d.Grows d := ⟨.refl _, .refl _⟩

theorem Grows.trans (h₁ : d.Grows d') (h₂ : d'.Grows d'') : d.Grows d'' :=
  ⟨h₁.heap.trans h₂.heap, h₁.atoms.trans h₂.atoms⟩

theorem Grows.isTerm (h : d.Grows d') {c : Cell} (hc : d.heap.IsTerm d.atoms.size c) :
    d'.heap.IsTerm d'.atoms.size c :=
  hc.mono h.heap.keeps h.atoms.size_le

/-- The draft `d` was extended to another one in good order. -/
def Leads (d d' : Draft) : Prop := d'.Sound ∧ d.Grows d'

theorem Leads.trans (h₁ : d.Leads d') (h₂ : d'.Leads d'') : d.Leads d'' :=
  ⟨h₂.1, h₁.2.trans h₂.2⟩

/-- Changing the heap and the names of variables, with the scope as it is. -/
theorem Sound.grow (hd : d.Sound) (h : d.Grows d')
    (hw : d'.heap.WellFormed d'.atoms.size) (ha : d'.atoms.WellFormed)
    (hn : d'.names.WellFormed) (hs : d'.scope = d.scope) : d'.Sound where
  heap := hw
  atoms := ha
  names := hn
  scope p hp := h.isTerm (hd.scope p (hs ▸ hp))

theorem sound_var (hd : d.Sound) {name : String} (hn : IsVarName name) :
    d.Leads (d.var name).2 ∧
      (d.var name).2.heap.IsTerm (d.var name).2.atoms.size (d.var name).1 := by
  obtain ⟨hw, ht, hg⟩ := Heap.isTerm_newVar hd.heap
  unfold var
  split
  · have h : d.Grows { d with heap := d.heap.newVar.2 } := ⟨hg, .refl _⟩
    exact ⟨⟨hd.grow h hw hd.atoms hd.names rfl, h⟩, ht⟩
  · next hne =>
    split
    · next c hc =>
      refine ⟨⟨hd, .refl d⟩, ?_⟩
      obtain ⟨l₁, l₂, hl, -⟩ := List.lookup_eq_some_iff.1 hc
      exact hd.scope (name, c) (by simp [hl])
    · refine ⟨⟨⟨hw, hd.atoms, fun p hp => ?_, fun p hp => ?_⟩, hg, .refl _⟩, ht⟩
      · rcases List.mem_cons.1 hp with rfl | hp
        · exact ⟨hn, hne⟩
        · exact hd.names p hp
      · rcases List.mem_cons.1 hp with rfl | hp
        · exact ht
        · exact (hd.scope p hp).mono hg.keeps (Nat.le_refl _)

theorem sound_intern (hd : d.Sound) (name : String) :
    d.Leads (d.intern name).2 ∧ (d.intern name).1 < (d.intern name).2.atoms.size := by
  obtain ⟨hw, hx, hlt, -⟩ := AtomTable.intern_spec hd.atoms name
  have h : d.Grows (d.intern name).2 := ⟨.refl _, hx⟩
  exact ⟨⟨hd.grow h (hd.heap.mono_atoms hx.size_le) hw hd.names rfl, h⟩, hlt⟩

theorem sound_newCompound (hd : d.Sound) {f : Functor} {args : List Cell}
    (hn : f.name < d.atoms.size) (hf : f.arity = args.length) (hpos : 0 < f.arity)
    (ha : ∀ c ∈ args, d.heap.IsTerm d.atoms.size c) :
    d.Leads (d.newCompound f args).2 ∧
      (d.newCompound f args).2.heap.IsTerm (d.newCompound f args).2.atoms.size
        (d.newCompound f args).1 := by
  obtain ⟨hw, ht, hg⟩ := Heap.isTerm_newCompound hd.heap f args hn hf hpos ha
  have h : d.Grows (d.newCompound f args).2 := ⟨hg, .refl _⟩
  exact ⟨⟨hd.grow h hw hd.atoms hd.names rfl, h⟩, ht⟩

/-- There are as many terms as expressions. -/
theorem length_buildAll (d : Draft) (es : List Expr) : (d.buildAll es).1.length = es.length := by
  induction es generalizing d with
  | nil => rfl
  | cons e es ih => exact congrArg (· + 1) (ih (d.build e).2)

/-- A draft leads to another one, in which the given references are terms. -/
def LeadsToTerms (d : Draft) (built : List Cell × Draft) : Prop :=
  d.Leads built.2 ∧ ∀ c ∈ built.1, built.2.heap.IsTerm built.2.atoms.size c

/-- A compound term is built in stages: what comes before its name, the name, what comes behind it, and
the term itself. -/
structure Stages (d : Draft) (before : List Expr) (name : String) (behind : List Expr)
    (as bs : List Cell) (a : AtomId) (d₁ d₃ : Draft) : Prop where
  /-- What comes before the name is built. -/
  first : d.buildAll before = (as, d₁)
  /-- What comes behind the name is built. -/
  third : (d₁.intern name).2.buildAll behind = (bs, d₃)
  /-- Then the compound term is made. -/
  build : d.build (.compound before name behind) = d₃.newCompound ⟨a, as.length + bs.length⟩ (as ++ bs)
  /-- The first stage keeps the draft in order. -/
  leads₁ : d.Leads d₁
  /-- So does the second one. -/
  leads₂ : d₁.Leads (d₁.intern name).2
  /-- So does the third one. -/
  leads₃ : (d₁.intern name).2.Leads d₃
  /-- The first stage gives terms. -/
  terms₁ : ∀ c ∈ as, d₁.heap.IsTerm d₁.atoms.size c
  /-- At last all arguments are terms. -/
  terms : ∀ c ∈ as ++ bs, d₃.heap.IsTerm d₃.atoms.size c
  /-- There are arguments. -/
  pos : 0 < (as ++ bs).length
  /-- The number is that of the name. -/
  name : a < d₃.atoms.size ∧ d₃.atoms.name a = name

/-- The arguments of a compound term being built in order, so are its stages. -/
theorem stages_of_leadsToTerms {before behind : List Expr} {name : String}
    (hpos : 0 < before.length + behind.length) (hbefore : d.LeadsToTerms (d.buildAll before))
    (hbehind : ((d.buildAll before).2.intern name).2.LeadsToTerms
      (((d.buildAll before).2.intern name).2.buildAll behind)) :
    ∃ as bs a d₁ d₃, d.Stages before name behind as bs a d₁ d₃ := by
  obtain ⟨h₁, ht₁⟩ := hbefore
  have hl₁ := length_buildAll d before
  rcases e₁ : d.buildAll before with ⟨as, d₁⟩
  rw [e₁] at h₁ ht₁ hl₁ hbehind
  obtain ⟨h₃, ht₃⟩ := hbehind
  obtain ⟨h₂, hlt⟩ := sound_intern h₁.1 name
  have hname := (AtomTable.intern_spec h₁.1.atoms name).2.2.2
  have hl₃ := length_buildAll (d₁.intern name).2 behind
  rcases e₃ : (d₁.intern name).2.buildAll behind with ⟨bs, d₃⟩
  rw [e₃] at h₃ ht₃ hl₃
  refine ⟨as, bs, (d₁.intern name).1, d₁, d₃, e₁, e₃, ?_, h₁, h₂, h₃, ht₁, fun c hc => ?_, ?_,
    Nat.lt_of_lt_of_le hlt h₃.2.atoms.size_le, (h₃.2.atoms.name_eq hlt).trans hname⟩
  · simp only [Draft.build, e₁, e₃]
  · rcases List.mem_append.1 hc with hc | hc
    · exact (h₂.trans h₃).2.isTerm (ht₁ c hc)
    · exact ht₃ c hc
  · rw [List.length_append, hl₁, hl₃]
    exact hpos

mutual

/-- Building an expression gives a term. -/
theorem sound_build : ∀ {d : Draft} (_ : d.Sound) (e : Expr), e.WellFormed → d.Leads (d.build e).2 ∧
    (d.build e).2.heap.IsTerm (d.build e).2.atoms.size (d.build e).1
  | _, hd, .var _, .var hn => sound_var hd hn
  | d, hd, .int _, .int hn => ⟨⟨hd, .refl d⟩, hn⟩
  | _, hd, .atom name, _ =>
    have ⟨h, hlt⟩ := sound_intern hd name
    ⟨h, rfl, hlt⟩
  | _, hd, .compound before name behind, .compound _ hpos hbefore hbehind => by
    have h₁ := sound_buildAll hd before hbefore
    have h₃ := sound_buildAll (sound_intern h₁.1.1 name).1.1 behind hbehind
    obtain ⟨as, bs, a, d₁, d₃, h⟩ := stages_of_leadsToTerms hpos h₁ h₃
    obtain ⟨h₄, ht₄⟩ := sound_newCompound h.leads₃.1 (f := ⟨a, as.length + bs.length⟩) h.name.1
      List.length_append.symm (List.length_append ▸ h.pos) h.terms
    rw [h.build]
    exact ⟨((h.leads₁.trans h.leads₂).trans h.leads₃).trans h₄, ht₄⟩

/-- Building several expressions gives terms. -/
theorem sound_buildAll : ∀ {d : Draft} (_ : d.Sound) (es : List Expr), (∀ e ∈ es, e.WellFormed) →
    d.LeadsToTerms (d.buildAll es)
  | d, hd, [], _ => ⟨⟨hd, .refl d⟩, by simp [buildAll]⟩
  | d, hd, e :: es, hes => by
    obtain ⟨h₁, ht₁⟩ := sound_build hd e (hes e List.mem_cons_self)
    obtain ⟨h₂, ht₂⟩ := sound_buildAll h₁.1 es fun e' he' => hes e' (List.mem_cons_of_mem e he')
    refine ⟨h₁.trans h₂, fun c hc => ?_⟩
    rcases List.mem_cons.1 hc with rfl | hc
    · exact h₂.2.isTerm ht₁
    · exact ht₂ c hc

end

theorem exists_stages (hd : d.Sound) {before behind : List Expr} {name : String}
    (he : (Expr.compound before name behind).WellFormed) :
    ∃ as bs a d₁ d₃, d.Stages before name behind as bs a d₁ d₃ := by
  cases he with
  | compound _ hpos hbefore hbehind =>
    have h₁ := sound_buildAll hd before hbefore
    have h₃ := sound_buildAll (sound_intern h₁.1.1 name).1.1 behind hbehind
    exact stages_of_leadsToTerms hpos h₁ h₃

/-- Parts of terms that never become complete do no harm. -/
theorem sound_addFragments (hd : d.Sound) {parts : List Fragment}
    (hp : ∀ x ∈ parts, x.WellFormed) : d.Leads (parts.foldl addFragment d) := by
  induction parts generalizing d with
  | nil => exact ⟨hd, .refl d⟩
  | cons x parts ih =>
    have hx : d.Leads (d.addFragment x) := by
      cases x with
      | expr e => exact (sound_build hd e (hp _ List.mem_cons_self)).1
      | name s => exact (sound_intern hd s).1
    exact hx.trans (ih hx.1 fun y hy => hp y (List.mem_cons_of_mem x hy))

/-- Adding a clause gives a term, or adds what was complete of it. -/
theorem sound_addClause (hd : d.Sound) {clause : Except ReadFailure Expr}
    (hc : ReadResult.ValueWellFormed clause) : d.Leads (d.addClause clause).2 ∧
      ∀ c, (d.addClause clause).1 = .ok c →
        (d.addClause clause).2.heap.IsTerm (d.addClause clause).2.atoms.size c := by
  have h₀ : d.Leads { d with scope := [] } :=
    ⟨⟨hd.heap, hd.atoms, hd.names, by simp⟩, .refl _, .refl _⟩
  cases clause with
  | ok e =>
    obtain ⟨h, ht⟩ := sound_build h₀.1 e hc
    refine ⟨h₀.trans h, fun c e => ?_⟩
    cases e
    exact ht
  | error f =>
    refine ⟨h₀.trans (sound_addFragments h₀.1 hc), fun c e => ?_⟩
    cases e

/-- Adding several clauses gives terms. -/
theorem sound_addClauses (hd : d.Sound) (clauses : List (Except ReadFailure Expr))
    (hc : ∀ c ∈ clauses, ReadResult.ValueWellFormed c) : d.Leads (d.addClauses clauses).2 ∧
      ∀ c, .ok c ∈ (d.addClauses clauses).1 →
        (d.addClauses clauses).2.heap.IsTerm (d.addClauses clauses).2.atoms.size c := by
  induction clauses generalizing d with
  | nil => exact ⟨⟨hd, .refl d⟩, by simp [addClauses]⟩
  | cons clause clauses ih =>
    obtain ⟨h₁, ht₁⟩ := sound_addClause hd (hc clause List.mem_cons_self)
    obtain ⟨h₂, ht₂⟩ := ih h₁.1 fun c h => hc c (List.mem_cons_of_mem clause h)
    refine ⟨h₁.trans h₂, fun c h => ?_⟩
    rcases List.mem_cons.1 h with h | h
    · exact h₂.2.isTerm (ht₁ c h.symm)
    · exact ht₂ c h

end Draft

end PrologTerms
