import PrologTerms.Proofs.Writing.Leaves
import PrologTerms.Proofs.Writing.Naming
import PrologTerms.Proofs.Writing.ReadBack
import PrologTerms.Proofs.Writing.Variables

/-!
# Clauses are read back

The text of a clause is read as an expression that means the term it was written for, if the term is
clear. If it is not, the term that is read has more leaves, unless there is an error.
-/

namespace PrologTerms

variable {g : Grammar} {naming : Address → String} {more : List Char} {b : Bool} {t : Tree}
  {stream : LexemeStream}

/-! ## Reading -/

/-- Behind a term that was read as a clause no leaf is sure to come. -/
theorem sureLeaves_of_clauseEnd {e e' : Expr} (h : (g.clauseEnd e stream).value = .ok e') :
    e' = e ∧ sureLeaves g.ops false stream = 0 := by
  unfold Grammar.clauseEnd at h
  split at h
  · cases h
    exact ⟨rfl, rfl⟩
  · cases h
  · split at h
    · next hstop =>
      split at h
      · cases h
        exact ⟨rfl, by rw [sureLeaves, hstop]⟩
      · cases h
    · cases h

theorem clauseEnd_of_stops {e : Expr} (h : Stops more stream) :
    ∃ rest, g.clauseEnd e stream = .ok e rest ∧ Lexes more false rest := by
  obtain ⟨l, rest, rfl, hkind, hlayout, hrest⟩ := h
  refine ⟨rest, ?_, hrest⟩
  rw [Grammar.clauseEnd, if_pos hkind, if_pos hlayout]

theorem clause?_of_error {l : Lexeme} {f : ReadFailure}
    (h : (g.finish (.start OpTable.maxPriority (.ok l :: stream))).value = .error f) :
    g.clause? (.ok l :: stream) =
      some ⟨.error f, (g.finish (.start OpTable.maxPriority (.ok l :: stream))).rest⟩ := by
  unfold Grammar.clause? Grammar.term
  rw [if_neg (by simp)]
  dsimp only
  rw [h]

theorem clause?_of_ok {l : Lexeme} {e : Expr}
    (h : (g.finish (.start OpTable.maxPriority (.ok l :: stream))).value = .ok e) :
    g.clause? (.ok l :: stream) =
      some (g.clauseEnd e (g.finish (.start OpTable.maxPriority (.ok l :: stream))).rest) := by
  unfold Grammar.clause? Grammar.term
  rw [if_neg (by simp)]
  dsimp only
  rw [h]

/-- What is read as the clause of a term, and how many leaves it has if it is not what was written. -/
theorem clause?_of_spells (hr : g.ops.Regular) (ht : t.Writable)
    (hs : Spells naming more (t.pieces g.ops) b stream) : ∃ r, g.clause? stream = some r ∧
      (t.Clear g.ops → ∃ e, r.value = .ok e ∧ e.Denotes (Given naming) t ∧ Lexes more false r.rest) ∧
      (¬ t.Clear g.ops → ∀ e, r.value = .ok e → t.leaves < e.leaves) := by
  obtain ⟨l, rest, rfl⟩ := hs.exists_cons
  have hstand : Stands g naming more .whole OpTable.maxPriority [] :=
    ⟨Nat.le_refl _, trivial, fun _ => trivial, yields_of_none (fun _ _ _ h => operatorName?_stop h) _⟩
  have hlead := ht.readBack hr |>.1 .whole (by simp) [] _ [] b _ hstand hs
  let start := ReadState.start OpTable.maxPriority (.ok l :: rest)
  have hfinish : t.Clear g.ops → ∃ e rest', (g.finish start) = .ok e rest' ∧
      e.Denotes (Given naming) t ∧ Spells naming more [] false rest' := by
    intro hc
    obtain ⟨s, hgoes, e, q, stream', rfl, -, he, hstop⟩ := hlead.1 hc
    obtain ⟨l', rest', rfl⟩ := Spells.exists_cons hstop
    have hnone : g.operator? q OpTable.maxPriority l' = none := by
      rw [Grammar.operator?, operatorName?_stop hstop]
    exact ⟨e, _, hgoes.finish_eq.trans (Grammar.finish_behind hnone), he, hstop⟩
  cases hv : (g.finish start).value with
  | error f =>
    refine ⟨_, clause?_of_error hv, fun hc => ?_, fun _ e he => by cases he⟩
    obtain ⟨e, rest', hfinish, -⟩ := hfinish hc
    rw [hfinish] at hv
    cases hv
  | ok e' =>
    refine ⟨_, clause?_of_ok hv, fun hc => ?_, fun hc e he => ?_⟩
    · obtain ⟨e, rest', hfinish, he, hstop⟩ := hfinish hc
      rw [hfinish] at hv ⊢
      obtain rfl : e = e' := Except.ok.inj hv
      obtain ⟨rest'', hend, hmore⟩ := clauseEnd_of_stops (g := g) (e := e) hstop
      dsimp only [ReadResult.ok]
      rw [hend]
      exact ⟨e, rfl, he, hmore⟩
    · obtain ⟨s, hgoes, hlt⟩ := hlead.2 hc
      have hlt : start.leaves g.ops < s.leaves g.ops := hlt
      have hstart : t.leaves ≤ start.leaves g.ops := by
        obtain ⟨stream', -, hle⟩ :=
          ht.keepsLeaves.1 .whole (by simp) [] b _ trivial (fun _ => trivial) hs
        have hsum : start.leaves g.ops = sureLeaves g.ops true (.ok l :: rest) := Nat.zero_add _
        have hflag : (!Place.whole.isOperand) = true := rfl
        rw [hflag] at hle
        omega
      obtain ⟨rfl, hzero⟩ := sureLeaves_of_clauseEnd he
      have hfinish : g.finish start = g.finish s := hgoes.finish_eq
      rw [hfinish] at hv hzero
      have hle := leaves_le_finish hr s hv
      omega

/-! ## Writing -/

variable {source : SourceNames}

/-- The text of a clause is that of its pieces, with a full stop that stands apart. -/
theorem toList_clauseText (ops : OpTable) (source : SourceNames) (t : Tree) {cs : List Char}
    (hcs : cs = Piece.textAll (t.givenName ops source) (t.pieces ops))
    (hmore : startsLayout more = true) : ∃ final,
      (t.clauseText ops source).toList ++ more = cs ++ final ∧ EndsClause cs final more := by
  have htext : (t.text ops source).toList = cs := by
    rw [hcs]
    exact String.toList_ofList
  have hspace : (t.text ops source ++ " .").toList ++ more = cs ++ ' ' :: '.' :: more := by
    rw [String.toList_append, htext, List.append_assoc]
    rfl
  have hstop : (t.text ops source ++ ".").toList ++ more = cs ++ '.' :: more := by
    rw [String.toList_append, htext, List.append_assoc]
    rfl
  unfold Tree.clauseText
  dsimp only
  rw [htext]
  cases hlast : cs.getLast? with
  | none =>
    refine ⟨_, hstop, .inl rfl, fun c hc => ?_, hmore⟩
    rw [hlast] at hc
    cases hc
  | some c =>
    dsimp only
    split
    · refine ⟨_, hspace, .inr rfl, fun _ _ _ h => ?_, hmore⟩
      cases h
    · next hc =>
      refine ⟨_, hstop, .inl rfl, fun c' hc' h => ?_, hmore⟩
      rw [hlast] at hc'
      cases hc'
      rw [isDigit_iff] at h
      rw [Bool.or_eq_true] at hc
      exact absurd h hc

/-- The text of a clause has no layout at its front, and is read as the pieces of its term. -/
theorem spells_clauseText (ops : OpTable) (hs : source.WellFormed) (ht : t.Writable)
    (hmore : startsLayout more = true) :
    startsLayout ((t.clauseText ops source).toList ++ more) = false ∧
      ∀ b stream, Lexes ((t.clauseText ops source).toList ++ more) b stream →
        Spells (t.givenName ops source) more (t.pieces ops) b stream := by
  obtain ⟨final, htext, hfinal⟩ := toList_clauseText ops source t rfl hmore
  have htidy : Tidy (t.pieces ops) := ht.proper.tidy.1 .whole (by simp) [] trivial trivial
  have hnames : ∀ i, .var i ∈ t.pieces ops → IsVarName (t.givenName ops source i) :=
    fun i hi => (Tree.names_givenName hs ops t).2.isVarName i (Tree.mem_vars_of_mem_pieces hi)
  rw [htext]
  refine ⟨?_, fun b stream h => spells_of_lexes htidy hnames hfinal h⟩
  have hopens : ∃ q qs, t.pieces ops = q :: qs ∧ q.opens = true := ht.proper.opens (by simp) []
  obtain ⟨q, qs, hps, hq⟩ := hopens
  rw [hps] at htidy hnames hfinal ⊢
  refine startsLayout_textAll ?_ htidy hnames hfinal.keepsApart
  rintro rfl
  cases hq

/-- The clause that is written for a term is read as the term, if the term is clear, and otherwise not
as any term with as many leaves. -/
theorem clause?_clauseText {ops : OpTable} (hr : ops.Regular) (hs : source.WellFormed)
    (ht : t.Writable) :
    ∃ r, (ops.grammar (t.clauseText ops source)).clause? (.ofText (t.clauseText ops source)) = some r ∧
      (t.Clear ops → ∃ e, r.value = .ok e ∧ e.Denotes (Given (t.givenName ops source)) t) ∧
      (¬ t.Clear ops → ∀ e, r.value = .ok e → t.leaves < e.leaves) := by
  have hlexes := lexes_ofText (t.clauseText ops source)
  rw [← List.append_nil (t.clauseText ops source).toList] at hlexes
  have hspells := (spells_clauseText ops hs ht rfl).2 _ _ hlexes
  obtain ⟨r, hr, hclear, hunclear⟩ := clause?_of_spells (g := ops.grammar _) hr ht hspells
  refine ⟨r, hr, fun hc => ?_, hunclear⟩
  obtain ⟨e, hv, he, -⟩ := hclear hc
  exact ⟨e, hv, he⟩

/-! ## Several clauses -/

/-- The clauses of several terms, each of them on a line of its own. -/
def Tree.linesOf (ops : OpTable) (source : SourceNames) (ts : List Tree) : List Char :=
  ts.flatMap fun t => (t.clauseText ops source).toList ++ ['\n']

/-- The clauses that are written for terms are read as these terms. -/
theorem clauses_linesOf (hr : g.ops.Regular) (hs : source.WellFormed) {ts : List Tree}
    (hts : ∀ t ∈ ts, t.Writable ∧ t.Clear g.ops)
    (h : Lexes (Tree.linesOf g.ops source ts) b stream) : ∃ es, g.clauses stream = es.map .ok ∧
      List.Forall₂ (fun e t => e.Denotes (Given (t.givenName g.ops source)) t) es ts := by
  induction ts generalizing b stream with
  | nil =>
    have hnil : stream = [] := h.nil
    subst hnil
    exact ⟨[], Grammar.clauses_of_none rfl, .nil⟩
  | cons t ts ih =>
    obtain ⟨ht, hclear⟩ := hts t List.mem_cons_self
    have hts' : ∀ u ∈ ts, u.Writable ∧ u.Clear g.ops := fun u hu => hts u (List.mem_cons_of_mem t hu)
    let more := '\n' :: Tree.linesOf g.ops source ts
    have hmore : startsLayout more = true := rfl
    have htext : Tree.linesOf g.ops source (t :: ts) = (t.clauseText g.ops source).toList ++ more := by
      rw [Tree.linesOf, List.flatMap_cons, List.append_assoc]
      rfl
    rw [htext] at h
    have hspells := (spells_clauseText g.ops hs ht hmore).2 b stream h
    obtain ⟨r, hclause, hread, -⟩ := clause?_of_spells hr ht hspells
    obtain ⟨e, hv, he, hrest⟩ := hread hclear
    -- the line break is all the layout in front of the next clause
    have hnext : Tree.linesOf g.ops source ts = [] ∨
        startsLayout (Tree.linesOf g.ops source ts) = false := by
      cases ts with
      | nil => exact .inl rfl
      | cons u us =>
        rw [Tree.linesOf, List.flatMap_cons, List.append_assoc]
        exact .inr (spells_clauseText g.ops hs (hts' u List.mem_cons_self).1 rfl).1
    have hrest : Lexes (['\n'] ++ Tree.linesOf g.ops source ts) false r.rest := hrest
    have hrest := hrest.layout (scansAs_layout (by decide) hnext)
    obtain ⟨es, hes, hdenotes⟩ := ih hts' hrest
    refine ⟨e :: es, ?_, .cons he hdenotes⟩
    rw [Grammar.clauses_of_some hclause, hv, hes, List.map_cons]

end PrologTerms
