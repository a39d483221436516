import PrologTerms.Proofs.Heap.Parts
import PrologTerms.Proofs.Heap.Valuation
import PrologTerms.Proofs.Iteration
import PrologTerms.Proofs.Writing.Texts
import PrologTerms.Writing.Writer

/-!
# What is written straight from the heap

The tasks for a term write the pieces of its tree, whatever is to be written behind it. So the text, and
the names that are given to variables on the way, depend on the tree only, and not on how the term is
laid out on the heap.
-/

namespace PrologTerms

namespace WriteState

variable {source : SourceNames} {s : WriteState} {ps qs : List Piece} {ts us : List Task}

/-- Writes a piece; if it is a variable without a name, it is given one. -/
def emit (source : SourceNames) (s : WriteState) (p : Piece) : WriteState :=
  let given := match p.var? with
    | some i => s.given.add source i
    | none => s.given
  { s with given, out := s.out ++ p.text given.get }

/-- Writes pieces one after the other. -/
def emitAll (source : SourceNames) (s : WriteState) (ps : List Piece) : WriteState :=
  ps.foldl (emit source) s

@[simp] theorem emitAll_nil : s.emitAll source [] = s := rfl

@[simp] theorem emitAll_cons {p : Piece} :
    s.emitAll source (p :: ps) = (s.emit source p).emitAll source ps := rfl

@[simp] theorem emitAll_append : s.emitAll source (ps ++ qs) = (s.emitAll source ps).emitAll source qs :=
  List.foldl_append

@[simp] theorem push_nil : s.push [] = s := rfl

theorem push_append : s.push (ts ++ us) = (s.push us).push ts := by
  simp [push]

/-- What is written does not depend on what is still to be written. -/
theorem emitAll_push : (s.push ts).emitAll source ps = (s.emitAll source ps).push ts := by
  induction ps generalizing s with
  | nil => rfl
  | cons p ps ih => exact ih (s := s.emit source p)

/-- All pieces are written with the names that are given in the end. -/
theorem emitAll_eq : s.emitAll source ps =
    { s with
      given := s.given.addAll source (ps.filterMap Piece.var?)
      out := s.out ++ Piece.textAll (s.given.addAll source (ps.filterMap Piece.var?)).get ps } := by
  induction ps generalizing s with
  | nil => simp [Naming.addAll, Piece.textAll]
  | cons p ps ih =>
    rw [emitAll_cons, ih]
    cases hp : p.var? with
    | none =>
      have htext : ∀ naming naming', p.text naming = p.text naming' := by
        intro naming naming'
        cases p with
        | var i => cases hp
        | _ => rfl
      rw [List.filterMap_cons_none hp]
      simp only [emit, hp, Piece.textAll, List.flatMap_cons, List.append_assoc]
      rw [htext s.given.get]
    | some i =>
      obtain rfl : p = .var i := by
        cases p with
        | var j => exact congrArg _ (Option.some.inj hp)
        | _ => cases hp
      obtain ⟨name, hname⟩ := Naming.exists_lookup_add source s.given i
      have hafter : ((s.given.add source i).addAll source (ps.filterMap Piece.var?)).lookup i =
          some name := Naming.lookup_addAll hname _
      have hget : (s.given.add source i).get i =
          ((s.given.add source i).addAll source (ps.filterMap Piece.var?)).get i := by
        rw [Naming.get, Naming.get, hname, hafter]
      rw [List.filterMap_cons_some hp]
      simp only [emit, hp, Piece.textAll, List.flatMap_cons, List.append_assoc, Piece.text, hget]
      rfl

end WriteState

namespace Writer

/-- The atoms and the heap are in order. -/
structure Sound (w : Writer) : Prop where
  /-- The atoms. -/
  atoms : w.atoms.WellFormed
  /-- The heap. -/
  heap : w.heap.WellFormed w.atoms.size

/-- The cell is a term with this tree. -/
structure HasTree (w : Writer) (c : Cell) (t : Tree) : Prop where
  /-- It is a term. -/
  isTerm : w.heap.IsTerm w.atoms.size c
  /-- It has the tree. -/
  tree : w.heap.HasTree w.atoms c t

/-- The tasks write what `f` puts in front of other pieces, with any other tasks behind them. -/
def Writes (w : Writer) (ts : List Task) (f : List Piece → List Piece) : Prop :=
  ∃ ps, (∀ k, f k = ps ++ k) ∧
    ∀ s : WriteState, ∃ n, Iteration.Steps w.step n (s.push ts) (s.emitAll w.source ps)

variable {w : Writer} {ts us : List Task} {f g : List Piece → List Piece} {t : Task}

/-! ## Tasks one after the other -/

theorem Writes.nil : w.Writes [] fun k => k := ⟨[], fun _ => rfl, fun s => ⟨0, .refl s⟩⟩

theorem Writes.append (hf : w.Writes ts f) (hg : w.Writes us g) :
    w.Writes (ts ++ us) fun k => f (g k) := by
  obtain ⟨ps, hps, hf⟩ := hf
  obtain ⟨qs, hqs, hg⟩ := hg
  refine ⟨ps ++ qs, fun k => by simp only [hps, hqs, List.append_assoc], fun s => ?_⟩
  obtain ⟨n, hn⟩ := hf (s.push us)
  obtain ⟨m, hm⟩ := hg (s.emitAll w.source ps)
  rw [WriteState.emitAll_push] at hn
  rw [WriteState.push_append, WriteState.emitAll_append]
  exact ⟨n + m, hn.trans hm⟩

theorem Writes.cons (hf : w.Writes [t] f) (hg : w.Writes us g) : w.Writes (t :: us) fun k => f (g k) :=
  hf.append hg

/-- A task writes some pieces, and what the tasks write that it puts in its place. -/
theorem Writes.perform (ps : List Piece)
    (ht : ∀ s, w.perform? s t = some ((s.emitAll w.source ps).push ts)) (hf : w.Writes ts f) :
    w.Writes [t] fun k => ps ++ f k := by
  obtain ⟨qs, hqs, hf⟩ := hf
  refine ⟨ps ++ qs, fun k => by simp only [hqs, List.append_assoc], fun s => ?_⟩
  obtain ⟨n, hn⟩ := hf (s.emitAll w.source ps)
  have hstep : w.step (s.push [t]) = .more ((s.emitAll w.source ps).push ts) := by
    simp only [step, WriteState.push, List.singleton_append, ht]
  rw [WriteState.emitAll_append]
  exact ⟨n + 1, .head hstep hn⟩

/-- A task that puts no others in its place. -/
theorem Writes.of_perform (ps : List Piece)
    (ht : ∀ s, w.perform? s t = some (s.emitAll w.source ps)) : w.Writes [t] fun k => ps ++ k := by
  have hnone : ∀ s, w.perform? s t = some ((s.emitAll w.source ps).push []) := ht
  exact .perform ps hnone .nil

/-- A task that opens a bracket if an operator needs one. -/
theorem Writes.bracketed (ps : List Piece) (priority max : Nat)
    (ht : ∀ s, w.perform? s t =
      some (((s.openFor priority max).emitAll w.source ps).push ts)) (hf : w.Writes ts f) :
    w.Writes [t] (Tree.bracketed (max < priority) fun k => ps ++ f k) := by
  by_cases hlt : max < priority
  · have hclose : w.Writes [.text [')']] fun k => .punct ')' :: k :=
      .of_perform [.punct ')'] fun s => rfl
    rw [decide_eq_true hlt]
    refine Writes.perform (.punct '(' :: ps) (fun s => ?_) (hf.append hclose)
    rw [ht, WriteState.openFor, if_pos hlt, WriteState.emitAll_push, WriteState.push_append]
    rfl
  · rw [decide_eq_false hlt]
    refine Writes.perform ps (fun s => ?_) hf
    rw [ht, WriteState.openFor, if_neg hlt]

theorem Writes.congr (h : w.Writes ts f) (e : ∀ k, g k = f k) : w.Writes ts g := by
  obtain ⟨ps, hps, hf⟩ := h
  exact ⟨ps, fun k => (e k).trans (hps k), hf⟩

/-! ## Looking at terms -/

variable {c : Cell} {tree : Tree} {name : String} {trees : List Tree} {fn : Functor} {args : List Cell}

/-- A term has a form, and its arguments have trees, which make up its tree. -/
theorem HasTree.view (hw : w.Sound) (h : w.HasTree c tree) : ∃ v trees, w.heap.view? c = some v ∧
    v.Fits w.heap w.atoms.size ∧ List.Forall₂ w.HasTree v.args trees ∧
      v.plug w.atoms .var trees = tree := by
  obtain ⟨hc, n, hn⟩ := h
  obtain ⟨n, v, rfl, hv⟩ := Heap.exists_view?_of_resolveWithin hn
  obtain ⟨trees, htrees, e⟩ := (Heap.resolveWithin_eq_some_iff hv).1 hn
  have hfits := (Heap.view?_spec hw.heap hc hv).2
  refine ⟨v, trees, hv, hfits, forall₂_imp_of_mem htrees fun d u hd _ hdu => ?_, e⟩
  exact ⟨hfits.isTerm_args d hd, n, hdu⟩

/-- The cell that a term leads to. -/
theorem HasTree.deref (hw : w.Sound) (h : w.HasTree c tree) : ∃ (v : View) (trees : List Tree),
    w.heap.deref? c = some v.cell ∧ v.plug w.atoms .var trees = tree := by
  obtain ⟨v, trees, hv, -, -, e⟩ := h.view hw
  exact ⟨v, trees, (Heap.view?_spec hw.heap h.isTerm hv).1, e⟩

/-- What is found where a term has the tree of an atom. -/
theorem HasTree.atom (hw : w.Sound) (h : w.HasTree c (.atom name)) : ∃ f : Functor,
    w.heap.view? c = some (.atom f) ∧ (View.atom f).Fits w.heap w.atoms.size ∧
      w.atoms.name f.name = name := by
  obtain ⟨v, trees, hv, hfits, -, e⟩ := h.view hw
  cases v with
  | atom f => exact ⟨f, hv, hfits, Tree.atom.inj e⟩
  | _ => cases e

/-- What is found where a term has the tree of a compound term. -/
theorem HasTree.compound (hw : w.Sound) (h : w.HasTree c (.compound name trees)) :
    ∃ i f args, w.heap.view? c = some (.compound i f args) ∧
      (View.compound i f args).Fits w.heap w.atoms.size ∧ w.atoms.name f.name = name ∧
        List.Forall₂ w.HasTree args trees := by
  obtain ⟨v, trees', hv, hfits, hargs, e⟩ := h.view hw
  cases v with
  | compound i f args =>
    obtain ⟨hname, rfl⟩ := Tree.compound.inj e
    exact ⟨i, f, args, hv, hfits, hname, hargs⟩
  | _ => cases e

/-- A functor with a fixed name is known by this name. -/
theorem Sound.functor_eq_iff (hw : w.Sound) (hf : fn.name < w.atoms.size) {b : AtomId}
    (hb : b < Atom.pinned.length) (n : Nat) :
    fn = ⟨b, n⟩ ↔ w.atoms.name fn.name = Atom.pinned[b] ∧ fn.arity = n := by
  rw [hw.atoms.name_eq_pinned_iff hf hb, Functor.ext_iff]

/-- A compound term with a fixed name is known by its functor. -/
theorem HasTree.pinned (hw : w.Sound) (h : w.HasTree c (.compound name trees)) {b : AtomId}
    (hb : b < Atom.pinned.length) (hname : name = Atom.pinned[b]) :
    ∃ i args, w.heap.view? c = some (.compound i ⟨b, trees.length⟩ args) ∧
      (View.compound i ⟨b, trees.length⟩ args).Fits w.heap w.atoms.size ∧
        List.Forall₂ w.HasTree args trees := by
  obtain ⟨i, f, args, hv, hfits, hf, hargs⟩ := h.compound hw
  have harity : f.arity = trees.length := hfits.2.2.1.symm.trans hargs.length_eq
  obtain rfl : f = ⟨b, trees.length⟩ :=
    (hw.functor_eq_iff (hfits.name_lt hw.heap rfl) hb _).2 ⟨hf.trans hname, harity⟩
  exact ⟨i, args, hv, hfits, hargs⟩

/-- The task for a compound term. -/
theorem perform?_compound {i : Address} (hv : w.heap.view? c = some (.compound i fn args)) (max : Nat)
    (operand : Bool) (s : WriteState) :
    w.perform? s (.term c max operand) = w.writeCompound? fn args max s := by
  obtain ⟨hd, hc⟩ := Heap.compound?_of_view? hv
  simp [perform?, writeTerm?, hd, hc]

/-! ## The tasks for a term -/

/-- The task for a term with this tree writes the pieces of the tree, wherever the term stands. -/
def WritesTerm (w : Writer) (t : Tree) : Prop :=
  ∀ c, w.HasTree c t → ∀ p, p ≠ .tail →
    w.Writes [.term c p.max p.isOperand] fun k => t.write w.ops p k

/-- The same at the end of a list. -/
def WritesTail (w : Writer) (t : Tree) : Prop :=
  ∀ c, w.HasTree c t → w.Writes [.tail c] fun k => t.write w.ops .tail k

section Forms

variable {a b : Tree} {d : OpDef}

/-- A fixed character is a piece. -/
theorem writes_char (ch : Char) : w.Writes [.text [ch]] fun k => .punct ch :: k :=
  .of_perform [.punct ch] fun _ => rfl

theorem writes_space : w.Writes [.text [' ']] fun k => .space :: k :=
  .of_perform [.space] fun _ => rfl

theorem writes_name (f : Functor) : w.Writes [.atom f.name] fun k => .atom (w.atoms.name f.name) :: k :=
  .of_perform [.atom (w.atoms.name f.name)] fun _ => rfl

theorem writes_comma : w.Writes [.text [',', ' ']] fun k => Tree.comma k := by
  refine (Writes.of_perform [.punct ',', .space] fun s => ?_).congr fun k => rfl
  simp [perform?, WriteState.put, WriteState.emit, Piece.var?, Piece.text]

/-! ### Variables, integers and atoms -/

theorem writesTerm_var (hw : w.Sound) (i : Address) : w.WritesTerm (.var i) := by
  intro c hc p hp
  obtain ⟨v, trees, hd, e⟩ := hc.deref hw
  cases v <;> cases e
  refine (Writes.of_perform [.var i] fun s => ?_).congr fun k => Tree.write_var hp i
  simp only [perform?, writeTerm?, hd, View.cell]
  rfl

theorem writesTerm_int (hw : w.Sound) (n : Int) : w.WritesTerm (.int n) := by
  intro c hc p hp
  obtain ⟨v, trees, hd, e⟩ := hc.deref hw
  cases v <;> cases e
  refine (Writes.of_perform [.int n] fun s => ?_).congr fun k => Tree.write_int hp n
  simp only [perform?, writeTerm?, hd, View.cell]
  rfl

/-- A stand-in is written in functional notation. -/
theorem writes_standIn {cs : List Char} (hcs : cs = atomText name ++ ['(']) (hnil : name ≠ "[]")
    (hcurly : name ≠ "\x7b\x7d") (n : Int)
    (ht : ∀ s, w.perform? s t = some (s.put (cs ++ decimal n ++ [')']))) :
    w.Writes [t] fun k => .functor name :: .punct '(' :: .int n :: .punct ')' :: k := by
  refine Writes.of_perform [.functor name, .punct '(', .int n, .punct ')'] fun s => ?_
  rw [ht]
  simp [WriteState.put, WriteState.emit, Piece.var?, Piece.text, hcs, hnil, hcurly]

theorem writesTerm_big (hw : w.Sound) (n : Nat) : w.WritesTerm (.big n) := by
  intro c hc p hp
  obtain ⟨v, trees, hd, e⟩ := hc.deref hw
  cases v <;> cases e
  have hname : "'$big'(".toList = atomText "$big" ++ ['('] := by decide
  refine (writes_standIn hname (by decide) (by decide) n fun s => ?_).congr
    fun k => Tree.write_big hp n
  simp only [perform?, writeTerm?, hd, View.cell]
  rfl

theorem writesTerm_global (hw : w.Sound) (n : Nat) : w.WritesTerm (.global n) := by
  intro c hc p hp
  obtain ⟨v, trees, hd, e⟩ := hc.deref hw
  cases v <;> cases e
  have hname : "'$gbl'(".toList = atomText "$gbl" ++ ['('] := by decide
  refine (writes_standIn hname (by decide) (by decide) n fun s => ?_).congr
    fun k => Tree.write_global hp n
  simp only [perform?, writeTerm?, hd, View.cell]
  rfl

theorem writesTerm_atom (hw : w.Sound) (name : String) : w.WritesTerm (.atom name) := by
  intro c hc p hp
  obtain ⟨f, hv, hfits, rfl⟩ := hc.atom hw
  have hd := (Heap.view?_spec hw.heap hc.isTerm hv).1
  have hperform : ∀ s, w.perform? s (.term c p.max p.isOperand) =
      some (w.writeAtom f.name p.isOperand s) := by
    intro s
    simp only [perform?, writeTerm?, hd, View.cell]
    rfl
  cases hop : p.isOperand && w.ops.isOp (w.atoms.name f.name) with
  | true =>
    refine (Writes.of_perform [.punct '(', .atom (w.atoms.name f.name), .punct ')'] fun s => ?_).congr
      fun k => ?_
    · rw [hperform, writeAtom, hop]
      simp [WriteState.put, WriteState.emit, Piece.var?, Piece.text]
    · rw [Tree.write_atom hp, hop]
      rfl
  | false =>
    refine (Writes.of_perform [.atom (w.atoms.name f.name)] fun s => ?_).congr fun k => ?_
    · rw [hperform, writeAtom, hop]
      rfl
    · rw [Tree.write_atom hp, hop]
      rfl

/-! ### Brackets and operators -/

theorem WritesTerm.curly (hw : w.Sound) (ha : w.WritesTerm a) :
    w.WritesTerm (.compound "\x7b\x7d" [a]) := by
  intro c hc p hp
  obtain ⟨i, args, hv, -, hargs⟩ := hc.pinned hw (b := Atom.curly) (by decide) rfl
  rcases hargs with _ | ⟨harg, ⟨⟩⟩
  refine (Writes.perform [.punct '{'] (fun s => ?_)
    ((ha _ harg .whole (by decide)).cons (writes_char '}'))).congr fun k => Tree.write_curly hp
  rw [perform?_compound hv]
  rfl

/-- A term with a single argument is no list cell, and is not in curly brackets unless its name is. -/
theorem writeCompound?_one (hw : w.Sound) (hf : fn.name < w.atoms.size) {a : Cell}
    (harity : fn.arity = 1) (hname : w.atoms.name fn.name ≠ "\x7b\x7d") (max : Nat) (s : WriteState) :
    w.writeCompound? fn [a] max s =
      some ((w.operator? fn [a] max s).getD (w.writeCall fn [a] s)) := by
  have hdot : fn ≠ .dot := by
    rintro rfl
    cases harity
  have hcurly : fn ≠ .curly := fun e =>
    hname ((hw.functor_eq_iff hf (b := Atom.curly) (by decide) 1).1 e).1
  unfold writeCompound?
  rw [if_neg hdot, if_neg hcurly]

theorem WritesTerm.before (hw : w.Sound) (hne : name ≠ "\x7b\x7d") (hop : w.ops.before? name = some d)
    (ha : w.WritesTerm a) : w.WritesTerm (.compound name [a]) := by
  intro c hc p hp
  obtain ⟨i, f, args, hv, hfits, rfl, hargs⟩ := hc.compound hw
  rcases hargs with _ | ⟨harg, ⟨⟩⟩
  refine (Writes.bracketed [.atom (w.atoms.name f.name), .space] d.priority p.max (fun s => ?_)
    (ha _ harg (.operand d.rightMax) (by simp))).congr fun k => Tree.write_before hp hne hop
  rw [perform?_compound hv,
    writeCompound?_one hw (hfits.name_lt hw.heap rfl) hfits.2.2.1.symm hne]
  simp only [operator?, hop]
  simp [WriteState.put, WriteState.emit, Piece.var?, Piece.text, Place.isOperand, Place.max]

theorem WritesTerm.behind (hw : w.Sound) (hne : name ≠ "\x7b\x7d")
    (hbefore : w.ops.before? name = none) (hop : w.ops.behind? name = some d) (ha : w.WritesTerm a) :
    w.WritesTerm (.compound name [a]) := by
  intro c hc p hp
  obtain ⟨i, f, args, hv, hfits, rfl, hargs⟩ := hc.compound hw
  rcases hargs with _ | ⟨harg, ⟨⟩⟩
  refine (Writes.bracketed [] d.priority p.max (fun s => ?_)
    ((ha _ harg (.operand d.leftMax) (by simp)).cons (writes_space.cons (writes_name f)))).congr
    fun k => Tree.write_behind hp hne hbefore hop
  rw [perform?_compound hv,
    writeCompound?_one hw (hfits.name_lt hw.heap rfl) hfits.2.2.1.symm hne]
  simp only [operator?, hbefore, hop]
  rfl

/-- What stands between two operands. -/
theorem writes_sign (hw : w.Sound) (hf : fn.name < w.atoms.size) :
    w.Writes (if fn.name = Atom.comma then [.text [',', ' ']]
      else [.text [' '], .atom fn.name, .text [' ']])
      fun k => Tree.betweenOperands (w.atoms.name fn.name) k := by
  have hcomma := hw.atoms.name_eq_pinned_iff hf (b := Atom.comma) (by decide)
  split
  · next e => exact writes_comma.congr fun k => if_pos (hcomma.2 e)
  · next e =>
    exact (writes_space.cons ((writes_name fn).cons writes_space)).congr
      fun k => if_neg fun h => e (hcomma.1 h)

theorem WritesTerm.between (hw : w.Sound) (hne : name ≠ ".") (hop : w.ops.between? name = some d)
    (ha : w.WritesTerm a) (hb : w.WritesTerm b) : w.WritesTerm (.compound name [a, b]) := by
  intro c hc p hp
  obtain ⟨i, f, args, hv, hfits, rfl, hargs⟩ := hc.compound hw
  rcases hargs with _ | ⟨harg, _ | ⟨harg', ⟨⟩⟩⟩
  have hlt := hfits.name_lt hw.heap rfl
  have hdot : f ≠ .dot := fun e =>
    hne ((hw.functor_eq_iff hlt (b := Atom.dot) (by decide) 2).1 e).1
  have hcurly : f ≠ .curly := by
    rintro rfl
    cases hfits.2.2.1
  refine (Writes.bracketed [] d.priority p.max (fun s => ?_)
    ((ha _ harg (.operand d.leftMax) (by simp)).cons ((writes_sign hw hlt).append
      (hb _ harg' (.operand d.rightMax) (by simp))))).congr
    fun k => Tree.write_between hp hne hop
  rw [perform?_compound hv]
  unfold writeCompound?
  rw [if_neg hdot, if_neg hcurly, operator?, hop]
  rfl

/-! ### Functional notation -/

/-- Arguments with commas between them. -/
theorem writes_arguments (h : List.Forall₂ w.HasTree args trees)
    (ht : ∀ t ∈ trees, w.WritesTerm t) :
    w.Writes (argumentTasks args) fun k => Tree.writeArgs w.ops trees k := by
  induction h with
  | nil => exact .nil
  | @cons a t args trees ha hargs ih =>
    have hterm := ht t List.mem_cons_self a ha .argument (by decide)
    have ih := ih fun u hu => ht u (List.mem_cons_of_mem t hu)
    cases hargs with
    | nil => exact hterm
    | cons => exact hterm.cons (writes_comma.cons ih)

/-- A term in functional notation is neither written with brackets of its own nor as an operator. -/
theorem writeCompound?_of_isCall (hw : w.Sound) (hf : fn.name < w.atoms.size)
    (hlen : args.length = fn.arity) (h : Tree.IsCall w.ops (w.atoms.name fn.name) trees)
    (htrees : args.length = trees.length) (max : Nat) (s : WriteState) :
    w.writeCompound? fn args max s = some (w.writeCall fn args s) := by
  have hdot : fn ≠ .dot := by
    intro e
    obtain ⟨hname, harity⟩ := (hw.functor_eq_iff hf (b := Atom.dot) (by decide) 2).1 e
    obtain ⟨a, b, rfl⟩ := List.length_eq_two.1 (htrees.symm.trans (hlen.trans harity))
    exact (h.two a b rfl).1 hname
  have hcurly : fn ≠ .curly := by
    intro e
    obtain ⟨hname, harity⟩ := (hw.functor_eq_iff hf (b := Atom.curly) (by decide) 1).1 e
    obtain ⟨a, rfl⟩ := List.length_eq_one_iff.1 (htrees.symm.trans (hlen.trans harity))
    exact (h.one a rfl).1 hname
  have hop : w.operator? fn args max s = none := by
    match args, trees, h, htrees with
    | [a], [t], h, _ =>
      obtain ⟨-, hbefore, hbehind⟩ := h.one t rfl
      simp only [operator?, hbefore, hbehind]
    | [a, b], [t, u], h, _ =>
      obtain ⟨-, hbetween⟩ := h.two t u rfl
      simp only [operator?, hbetween, Option.map_none]
    | [], _, _, _ => rfl
    | _ :: _ :: _ :: _, _, _, _ => rfl
  unfold writeCompound?
  rw [if_neg hdot, if_neg hcurly, hop]
  rfl

/-- The name of a compound term in functional notation. -/
theorem shown_name (hw : w.Sound) (hf : fn.name < w.atoms.size) (naming : Address → String) :
    (if fn.name = Atom.nil ∨ fn.name = Atom.curly then
      '\'' :: (w.atoms.name fn.name).toList ++ ['\''] else atomText (w.atoms.name fn.name)) =
    (Piece.functor (w.atoms.name fn.name)).text naming := by
  have hnil := hw.atoms.name_eq_pinned_iff hf (b := Atom.nil) (by decide)
  have hcurly := hw.atoms.name_eq_pinned_iff hf (b := Atom.curly) (by decide)
  have hnil' : Atom.pinned[Atom.nil] = "[]" := rfl
  have hcurly' : Atom.pinned[Atom.curly] = "\x7b\x7d" := rfl
  rw [hnil'] at hnil
  rw [hcurly'] at hcurly
  rw [Piece.text]
  by_cases h : fn.name = Atom.nil ∨ fn.name = Atom.curly
  · rw [if_pos h]
    rcases h with h | h
    · rw [hnil.2 h]
      decide
    · rw [hcurly.2 h]
      decide
  · rw [if_neg h, if_neg]
    rwa [hnil, hcurly]

theorem WritesTerm.call (hw : w.Sound) (hcall : Tree.IsCall w.ops name trees)
    (htrees : ∀ t ∈ trees, w.WritesTerm t) : w.WritesTerm (.compound name trees) := by
  intro c hc p hp
  obtain ⟨i, f, args, hv, hfits, rfl, hargs⟩ := hc.compound hw
  have hlt := hfits.name_lt hw.heap rfl
  refine (Writes.perform [.functor (w.atoms.name f.name), .punct '('] (fun s => ?_)
    ((writes_arguments hargs htrees).append (writes_char ')'))).congr fun k => Tree.write_call hp hcall
  rw [perform?_compound hv,
    writeCompound?_of_isCall hw hlt hfits.2.2.1 hcall hargs.length_eq, writeCall,
    shown_name hw hlt s.given.get]
  simp [WriteState.put, WriteState.emit, Piece.var?, Piece.text]

/-! ### Lists -/

theorem WritesTerm.list (hw : w.Sound) (ha : w.WritesTerm a) (hb : w.WritesTail b) :
    w.WritesTerm (.compound "." [a, b]) := by
  intro c hc p hp
  obtain ⟨i, args, hv, hfits, hargs⟩ := hc.pinned hw (b := Atom.dot) (by decide) rfl
  rcases hargs with _ | ⟨harg, _ | ⟨harg', ⟨⟩⟩⟩
  refine (Writes.perform [.punct '['] (fun s => ?_)
    ((ha _ harg .argument (by decide)).cons ((hb _ harg').cons (writes_char ']')))).congr
    fun k => Tree.write_list hp
  rw [perform?_compound hv]
  rfl

/-- The rest of a list is told by its form. -/
theorem perform?_tail (hw : w.Sound) {v : View} (hc : w.heap.IsTerm w.atoms.size c)
    (hv : w.heap.view? c = some v) (s : WriteState) : w.perform? s (.tail c) =
      if v.isPair then do
        let a ← w.heap.arg? v.cell 0
        let b ← w.heap.arg? v.cell 1
        pure ((s.put [',', ' ']).push [.term a argumentMax false, .tail b])
      else if v.isNil then some s
      else some ((s.put ['|']).push [.term v.cell argumentMax false]) := by
  obtain ⟨hd, hfits⟩ := Heap.view?_spec hw.heap hc hv
  simp only [perform?, writeTail?, hd, Option.bind_eq_bind, Option.bind_some,
    Heap.isPair?_cell hfits, Heap.isNil?_cell hfits]
  rfl

theorem writesTail_nil (hw : w.Sound) : w.WritesTail (.atom "[]") := by
  intro c hc
  obtain ⟨f, hv, hfits, hf⟩ := hc.atom hw
  obtain rfl : f = .atom Atom.nil :=
    (hw.functor_eq_iff hfits.2 (b := Atom.nil) (by decide) 0).2 ⟨hf, hfits.1⟩
  refine (Writes.of_perform [] fun s => ?_).congr fun k => Tree.write_tail_nil
  rw [perform?_tail hw hc.isTerm hv]
  rfl

theorem WritesTail.list (hw : w.Sound) (ha : w.WritesTerm a) (hb : w.WritesTail b) :
    w.WritesTail (.compound "." [a, b]) := by
  intro c hc
  obtain ⟨i, args, hv, hfits, hargs⟩ := hc.pinned hw (b := Atom.dot) (by decide) rfl
  have hpair : (View.compound i ⟨Atom.dot, [a, b].length⟩ args).isPair = true := rfl
  rcases hargs with _ | ⟨harg, _ | ⟨harg', ⟨⟩⟩⟩
  refine (Writes.perform [.punct ',', .space] (fun s => ?_)
    ((ha _ harg .argument (by decide)).cons (hb _ harg'))).congr fun k => Tree.write_tail_list
  rw [perform?_tail hw hc.isTerm hv, if_pos hpair]
  simp only [View.cell, Heap.arg?_cell hfits]
  simp [WriteState.put, WriteState.emit, Piece.var?, Piece.text, Place.isOperand, Place.max]

/-- Any other tail is written like an argument, behind a bar. -/
theorem WritesTerm.tail (hw : w.Sound) (ht : tree.Proper) (hl : ¬ tree.IsList)
    (h : w.WritesTerm tree) : w.WritesTail tree := by
  intro c hc
  obtain ⟨v, trees, hv, hfits, hargs, e⟩ := hc.view hw
  have hd := (Heap.view?_spec hw.heap hc.isTerm hv).1
  have hpair : v.isPair = false := by
    cases v with
    | compound i f args =>
      refine beq_eq_false_iff_ne.2 fun hf => hl (.inr ?_)
      obtain ⟨hname, harity⟩ :=
        (hw.functor_eq_iff (hfits.name_lt hw.heap rfl) (b := Atom.dot) (by decide) 2).1 hf
      have hlen : trees.length = 2 := hargs.length_eq.symm.trans (hfits.2.2.1.trans harity)
      obtain ⟨a, b, rfl⟩ := List.length_eq_two.1 hlen
      exact ⟨a, b, e.symm.trans (congrArg (Tree.compound · [a, b]) hname)⟩
    | _ => rfl
  have hnil : v.isNil = false := by
    cases v with
    | atom f =>
      refine beq_eq_false_iff_ne.2 fun hf => hl (.inl ?_)
      obtain ⟨hname, -⟩ :=
        (hw.functor_eq_iff (hfits.name_lt hw.heap rfl) (b := Atom.nil) (by decide) 0).1 hf
      exact e.symm.trans (congrArg Tree.atom hname)
    | _ => rfl
  have hcell : w.HasTree v.cell tree := by
    obtain ⟨n, hn⟩ := hc.tree
    rw [Heap.resolveWithin_of_view? (Heap.view?_of_deref? hd (Heap.deref?_cell hfits))] at hn
    exact ⟨hfits.isTerm_cell, n, hn⟩
  refine (Writes.perform [.punct '|'] (fun s => ?_) (h v.cell hcell .argument (by decide))).congr
    fun k => Tree.write_tail ht hl
  rw [perform?_tail hw hc.isTerm hv, hpair, hnil]
  rfl

end Forms

/-- The tasks for terms and for the rests of lists write the pieces of their trees. -/
theorem writesTerm_and_writesTail (hw : w.Sound) (ht : tree.Proper) :
    w.WritesTerm tree ∧ w.WritesTail tree := by
  refine Tree.Proper.tail_induction w.ops (writesTerm_var hw) (writesTerm_int hw) (writesTerm_big hw)
    (writesTerm_global hw) (writesTerm_atom hw) ?curly ?before ?behind ?list ?between ?call
    (writesTail_nil hw) ?tail_list ?tail ht
  case curly => exact fun a _ ha => ha.curly hw
  case before => exact fun name d a hne hop _ ha => ha.before hw hne hop
  case behind => exact fun name d a hne hbefore hop _ ha => ha.behind hw hne hbefore hop
  case list => exact fun a b _ _ ha hb => ha.list hw hb
  case between => exact fun name d a b hne hop _ _ ha hb => ha.between hw hne hop hb
  case call => exact fun name trees hcall _ htrees => .call hw hcall htrees
  case tail_list => exact fun a b _ _ ha hb => .list hw ha hb
  case tail => exact fun t ht hl h => h.tail hw ht hl

/-! ## The text of a term -/

/-- The writing of a term comes to an end, with this text and these names given to variables. -/
def Prints (w : Writer) (given : Naming) (c : Cell) (text : String) (after : Naming) : Prop :=
  ∃ n, Iteration.EndsAfter w.step n (start given c) (some (text.toList, after))

/-- A term is written as the text of its tree. -/
theorem HasTree.prints (hw : w.Sound) (h : w.HasTree c tree) (given : Naming) :
    w.Prints given c (tree.writeNaming w.ops w.source given).1
      (tree.writeNaming w.ops w.source given).2 := by
  obtain ⟨depth, htree⟩ := h.tree
  have hproper := Heap.proper_of_resolveWithin hw.heap h.isTerm htree
  obtain ⟨ps, hps, hsteps⟩ := (writesTerm_and_writesTail hw hproper).1 c h .whole (by decide)
  obtain rfl : tree.pieces w.ops = ps := (hps []).trans (List.append_nil ps)
  obtain ⟨n, hn⟩ := hsteps { tasks := [], given }
  refine ⟨n, _, hn, ?_⟩
  rw [WriteState.emitAll_eq]
  simp only [step, Tree.writeNaming, String.toList_ofList, List.nil_append]

end Writer

end PrologTerms
