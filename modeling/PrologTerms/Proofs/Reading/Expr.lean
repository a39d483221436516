import PrologTerms.Proofs.Reading.Step
import PrologTerms.Proofs.Token.VarName

/-!
# What is read makes sense

Every expression that is read, and every part that was complete when an error was met, is well-formed:
its variables have names of variables, its integers fit into 64 bits, and each of its compound terms
has an argument.
-/

namespace PrologTerms

/-- An expression that stands for a term. -/
inductive Expr.WellFormed : Expr → Prop
  /-- A variable with the name of a variable. -/
  | var {name : String} (h : IsVarName name) : Expr.WellFormed (.var name)
  /-- An integer of at most 64 bits. -/
  | int {n : Int} (h : fitsWord n = true) : Expr.WellFormed (.int n)
  /-- An atom. -/
  | atom (name : String) : Expr.WellFormed (.atom name)
  /-- A compound term with an argument. -/
  | compound {before behind : List Expr} (name : String)
      (hpos : 0 < before.length + behind.length) (hbefore : ∀ e ∈ before, Expr.WellFormed e)
      (hbehind : ∀ e ∈ behind, Expr.WellFormed e) : Expr.WellFormed (.compound before name behind)

namespace Expr

theorem WellFormed.call {name : String} {args : List Expr} (hpos : 0 < args.length)
    (h : ∀ e ∈ args, e.WellFormed) : (call name args).WellFormed :=
  .compound name (by simpa using hpos) (by simp) h

theorem WellFormed.list {items : List Expr} {tail : Expr} (hi : ∀ e ∈ items, e.WellFormed)
    (ht : tail.WellFormed) : (list items tail).WellFormed := by
  induction items with
  | nil => exact ht
  | cons e items ih =>
    refine .call (by simp) fun e' he' => ?_
    have htail := ih fun e' he' => hi e' (List.mem_cons_of_mem e he')
    rcases List.mem_cons.1 he' with rfl | he'
    · exact hi e' List.mem_cons_self
    · rwa [List.mem_singleton.1 he']

theorem fitsWord_toNat (c : Char) : fitsWord c.toNat = true := by
  have hc : c.toNat < 0x110000 := by
    rcases c.valid with h | ⟨-, h⟩
    · exact Nat.lt_trans h (by decide)
    · exact h
  simp only [fitsWord, Bool.and_eq_true, decide_eq_true_eq]
  omega

theorem WellFormed.codes (s : String) : (codes s).WellFormed := by
  refine .list (fun e he => ?_) (.atom "[]")
  obtain ⟨c, -, rfl⟩ := List.mem_map.1 he
  exact .int (fitsWord_toNat c)

end Expr

/-! ## Frames -/

/-- The part of a term makes sense. -/
def Fragment.WellFormed : Fragment → Prop
  | .expr e => e.WellFormed
  | .name _ => True

/-- The complete terms in a bracket. -/
def Bracket.exprs : Bracket → List Expr
  | .paren => []
  | .curly => []
  | .arguments _ before => before
  | .items before => before
  | .tail before => before

/-- The complete terms in a bracket make sense. -/
def Bracket.WellFormed (b : Bracket) : Prop := ∀ e ∈ b.exprs, e.WellFormed

/-- What a lexeme makes of a bracket makes sense. -/
def BracketStep.WellFormed : BracketStep → Prop
  | .closed e => e.WellFormed
  | .again b => b.WellFormed

/-- What the next lexeme makes of a bracket makes sense. -/
theorem Bracket.WellFormed.next? {b : Bracket} {e : Expr} {l : Lexeme} {r : BracketStep}
    (hb : b.WellFormed) (he : e.WellFormed) (h : b.next? e l = some r) : r.WellFormed := by
  have hall : ∀ e' ∈ e :: b.exprs, e'.WellFormed := by
    intro e' he'
    rcases List.mem_cons.1 he' with rfl | he'
    · exact he
    · exact hb e' he'
  have hrev : ∀ e' ∈ (e :: b.exprs).reverse, e'.WellFormed :=
    fun e' he' => hall e' (List.mem_reverse.1 he')
  cases Bracket.next_spec h with
  | paren => exact he
  | curly => exact .call (by simp) (by simpa using he)
  | argument => exact hall
  | call => exact .call (by simp) hrev
  | item => exact hall
  | bar => exact hall
  | list => exact .list hrev (.atom "[]")
  | tail => exact .list (fun e' he' => hb e' (List.mem_reverse.1 he')) he

/-- The complete terms in a frame make sense. -/
def Frame.WellFormed : Frame → Prop
  | .rightOperand left _ _ _ => left.WellFormed
  | .onlyOperand _ _ _ => True
  | .contents b _ => b.WellFormed

theorem Frame.WellFormed.fragments {f : Frame} (hf : f.WellFormed) :
    ∀ x ∈ f.fragments, x.WellFormed := by
  intro x hx
  cases f with
  | rightOperand left name priority max =>
    simp only [Frame.fragments, List.mem_cons, List.not_mem_nil, or_false] at hx
    rcases hx with rfl | rfl
    · exact hf
    · trivial
  | onlyOperand name priority max =>
    simp only [Frame.fragments, List.mem_singleton] at hx
    subst hx
    trivial
  | contents b max =>
    have hmap : ∀ es : List Expr, (∀ e ∈ es, e.WellFormed) →
        ∀ x ∈ es.reverse.map Fragment.expr, x.WellFormed := by
      intro es hes x hx
      obtain ⟨e, he, rfl⟩ := List.mem_map.1 hx
      exact hes e (List.mem_reverse.1 he)
    cases b with
    | paren => cases hx
    | curly => cases hx
    | arguments name before =>
      rcases List.mem_cons.1 hx with rfl | hx
      · trivial
      · exact hmap before hf x hx
    | items before => exact hmap before hf x hx
    | tail before => exact hmap before hf x hx

theorem wellFormed_fragmentsAround {frames : List Frame} (h : ∀ f ∈ frames, f.WellFormed) :
    ∀ x ∈ fragmentsAround frames, x.WellFormed := by
  intro x hx
  obtain ⟨f, hf, hx⟩ := List.mem_flatMap.1 hx
  exact (h f (List.mem_reverse.1 hf)).fragments x hx

/-! ## Reading -/

/-- The term that was read makes sense, or the parts of it that were complete at an error. -/
def ReadResult.ValueWellFormed : Except ReadFailure Expr → Prop
  | .ok e => e.WellFormed
  | .error f => ∀ x ∈ f.parts, x.WellFormed

theorem ReadResult.valueWellFormed_of_mem_map_ok {es : List Expr} (hes : ∀ e ∈ es, e.WellFormed) :
    ∀ r ∈ es.map (.ok : Expr → Except ReadFailure Expr), ReadResult.ValueWellFormed r :=
  List.forall_mem_map.2 hes

/-- The result of reading makes sense, and so does what is left to be read. -/
structure ReadResult.WellFormed (r : ReadResult) : Prop where
  /-- The term or its parts. -/
  value : ReadResult.ValueWellFormed r.value
  /-- The variables left to be read have names of variables. -/
  rest : r.rest.VarNamed

theorem ReadResult.wellFormed_fail {frames : List Frame} {es : List Expr} {err : ReadError}
    {rest : LexemeStream} (hf : ∀ f ∈ frames, f.WellFormed) (he : ∀ e ∈ es, e.WellFormed)
    (hr : rest.VarNamed) : (ReadResult.fail frames es err rest).WellFormed := by
  refine ⟨fun x hx => ?_, hr⟩
  rcases List.mem_append.1 hx with hx | hx
  · exact wellFormed_fragmentsAround hf x hx
  · obtain ⟨e, h, rfl⟩ := List.mem_map.1 hx
    exact he e h

/-- What is read next makes sense, as far as it is complete. -/
def Focus.WellFormed : Focus → Prop
  | .operand _ => True
  | .behind e _ _ => e.WellFormed

/-- All that was read makes sense. -/
structure ReadState.WellFormed (s : ReadState) : Prop where
  /-- The terms that are begun. -/
  frames : ∀ f ∈ s.frames, f.WellFormed
  /-- The term read last. -/
  focus : s.focus.WellFormed
  /-- The variables to be read have names of variables. -/
  stream : s.stream.VarNamed

/-- What a step leads to makes sense. -/
def Progress.WellFormed : Progress ReadState ReadResult → Prop
  | .more s => s.WellFormed
  | .done r => r.WellFormed

/-- The beginning of an operand makes sense. -/
def Operand.WellFormed : Operand → Prop
  | .complete e rest => e.WellFormed ∧ rest.VarNamed
  | .opened f _ rest => f.WellFormed ∧ rest.VarNamed
  | .failed _ rest => rest.VarNamed

theorem Token.fitsWord_of_integer {t : Token} {negative : Bool} {n : Int}
    (h : t.integer negative = .ok n) : fitsWord n = true := by
  unfold Token.integer at h
  split at h
  · cases h
  · next v _ =>
    simp only at h
    generalize (if negative = true then -(v : Int) else v) = m at h
    by_cases hf : fitsWord m = true
    · rw [if_pos hf, Except.ok.injEq] at h
      exact h ▸ hf
    · rw [if_neg hf] at h
      cases h

theorem Operand.wellFormed_ofInteger {t : Token} {negative : Bool} {rest : LexemeStream}
    (hr : rest.VarNamed) : (Operand.ofInteger t negative rest).WellFormed := by
  unfold Operand.ofInteger
  split
  · next n h => exact ⟨.int (Token.fitsWord_of_integer h), hr⟩
  · exact hr

theorem Operand.wellFormed_ofBracket {close : String} {empty : Expr} {f : Frame} {max : Nat}
    {rest : LexemeStream} (he : empty.WellFormed) (hf : f.WellFormed) (hr : rest.VarNamed) :
    (Operand.ofBracket close empty f max rest).WellFormed := by
  unfold Operand.ofBracket
  split
  · exact ⟨hf, hr⟩
  · exact hr.tail
  · split
    · exact ⟨he, hr.tail⟩
    · exact ⟨hf, hr⟩

namespace Grammar

variable {g : Grammar}

theorem wellFormed_plainName {max : Nat} {name : String} {rest : LexemeStream}
    (hr : rest.VarNamed) : (g.plainName max name rest).WellFormed := by
  unfold plainName
  repeat' split
  · exact ⟨trivial, hr⟩
  · exact ⟨.atom name, hr⟩
  · exact ⟨.atom name, hr⟩

theorem wellFormed_name {max : Nat} {name : String} {rest : LexemeStream}
    (hr : rest.VarNamed) : (g.name max name rest).WellFormed := by
  unfold Grammar.name
  repeat' split
  · exact wellFormed_plainName hr
  · exact hr.tail
  · exact wellFormed_plainName hr
  · exact ⟨by simp [Frame.WellFormed, Bracket.WellFormed, Bracket.exprs], hr.tail⟩
  · exact Operand.wellFormed_ofInteger hr.tail
  · exact hr.tail
  · exact wellFormed_plainName hr

/-- The beginning of an operand makes sense. -/
theorem wellFormed_operand (max : Nat) {stream : LexemeStream} (hs : stream.VarNamed) :
    (g.operand max stream).WellFormed := by
  have empty : ∀ b : Bracket, b.exprs = [] → b.WellFormed := by
    intro b hb e he
    rw [hb] at he
    cases he
  unfold operand
  split
  · exact hs
  · exact hs.tail
  · next l rest =>
    have hr : LexemeStream.VarNamed rest := hs.tail
    split
    · exact Operand.wellFormed_ofInteger hr
    · exact hr
    · next hk => exact ⟨.var (hs l List.mem_cons_self hk), hr⟩
    · exact ⟨.codes _, hr⟩
    · exact wellFormed_name hr
    · split
      · exact ⟨empty _ rfl, hr⟩
      · split
        · exact Operand.wellFormed_ofBracket (.atom _) (empty _ rfl) hr
        · split
          · exact Operand.wellFormed_ofBracket (.atom _) (empty _ rfl) hr
          · exact hr
    · exact hr
    · exact hr

theorem wellFormed_stepBracket {b : Bracket} {max : Nat} {frames : List Frame} {e : Expr}
    {stream : LexemeStream} (hb : b.WellFormed) (hf : ∀ f ∈ frames, f.WellFormed)
    (he : e.WellFormed) (hs : stream.VarNamed) :
    (g.stepBracket b max frames e stream).WellFormed := by
  have hf' : ∀ b' : Bracket, b'.WellFormed → ∀ f ∈ Frame.contents b' max :: frames, f.WellFormed := by
    intro b' hb' f h
    rcases List.mem_cons.1 h with rfl | h
    · exact hb'
    · exact hf f h
  have he' : ∀ e' ∈ [e], e'.WellFormed := by simpa using he
  unfold stepBracket
  split
  · exact ReadResult.wellFormed_fail (hf' b hb) he' hs
  · exact ReadResult.wellFormed_fail (hf' b hb) he' hs.tail
  · split
    · next hn => exact ⟨hf, hb.next? he hn, hs.tail⟩
    · next hn => exact ⟨hf' _ (hb.next? he hn), trivial, hs.tail⟩
    · exact ReadResult.wellFormed_fail (hf' b hb) he' hs.tail

theorem wellFormed_stepComplete {frames : List Frame} {e : Expr} {stream : LexemeStream}
    (hf : ∀ f ∈ frames, f.WellFormed) (he : e.WellFormed) (hs : stream.VarNamed) :
    (g.stepComplete e stream frames).WellFormed := by
  unfold stepComplete
  split
  · exact ⟨he, hs⟩
  · next left name priority max frames =>
    have hl : left.WellFormed := hf _ List.mem_cons_self
    refine ⟨fun f h => hf f (List.mem_cons_of_mem _ h), ?_, hs⟩
    exact .compound name (by simp) (by simpa using hl) (by simpa using he)
  · next name priority max frames =>
    refine ⟨fun f h => hf f (List.mem_cons_of_mem _ h), ?_, hs⟩
    exact .compound name (by simp) (by simp) (by simpa using he)
  · next b max frames =>
    exact wellFormed_stepBracket (hf _ List.mem_cons_self)
      (fun f h => hf f (List.mem_cons_of_mem _ h)) he hs

theorem wellFormed_stepBehind {frames : List Frame} {e : Expr} {priority max : Nat}
    {stream : LexemeStream} (hf : ∀ f ∈ frames, f.WellFormed) (he : e.WellFormed)
    (hs : stream.VarNamed) : (g.stepBehind frames e priority max stream).WellFormed := by
  unfold stepBehind
  split
  · exact wellFormed_stepComplete hf he hs
  · exact ReadResult.wellFormed_fail hf (by simpa using he) hs.tail
  · split
    · exact wellFormed_stepComplete hf he hs
    · split
      · refine ⟨fun f h => ?_, trivial, hs.tail⟩
        rcases List.mem_cons.1 h with rfl | h
        · exact he
        · exact hf f h
      · exact ⟨hf, .compound _ (by simp) (by simpa using he) (by simp), hs.tail⟩

/-- A step goes from what makes sense to what makes sense. -/
theorem wellFormed_step {s : ReadState} (hs : s.WellFormed) : (g.step s).WellFormed := by
  unfold step
  split
  · next e priority max h =>
    have he : s.focus.WellFormed := hs.focus
    rw [h] at he
    exact wellFormed_stepBehind hs.frames he hs.stream
  · next max _ =>
    have ho := wellFormed_operand (g := g) max hs.stream
    split
    · next h =>
      rw [h] at ho
      exact ⟨hs.frames, ho.1, ho.2⟩
    · next h =>
      rw [h] at ho
      refine ⟨fun f hf => ?_, trivial, ho.2⟩
      rcases List.mem_cons.1 hf with rfl | hf
      · exact ho.1
      · exact hs.frames f hf
    · next h =>
      rw [h] at ho
      exact ReadResult.wellFormed_fail hs.frames (by simp) ho

/-- What is read is well-formed. -/
theorem wellFormed_finish {s : ReadState} (hs : s.WellFormed) : (g.finish s).WellFormed := by
  fun_induction finish g s with
  | case1 s s' h ih =>
    have := wellFormed_step (g := g) hs
    rw [h] at this
    exact ih this
  | case2 s r h =>
    have := wellFormed_step (g := g) hs
    rwa [h] at this

theorem wellFormed_term (max : Nat) {stream : LexemeStream} (hs : stream.VarNamed) :
    (g.term max stream).WellFormed :=
  wellFormed_finish ⟨by simp [ReadState.start], trivial, hs⟩

theorem wellFormed_clauseEnd {e : Expr} {stream : LexemeStream} (he : e.WellFormed)
    (hs : stream.VarNamed) : (g.clauseEnd e stream).WellFormed := by
  have hfail : ∀ err rest, LexemeStream.VarNamed rest → (ReadResult.fail [] [e] err rest).WellFormed :=
    fun err rest hr => ReadResult.wellFormed_fail (by simp) (by simpa using he) hr
  unfold clauseEnd
  split
  · exact ⟨he, hs⟩
  · exact hfail _ _ hs.tail
  · split
    · split
      · exact ⟨he, hs.tail⟩
      · exact hfail _ _ hs.tail
    · exact hfail _ _ hs.tail

theorem wellFormed_clause? {stream : LexemeStream} {r : ReadResult} (hs : stream.VarNamed)
    (h : g.clause? stream = some r) : r.WellFormed := by
  unfold clause? at h
  split at h
  · cases h
  · have ht := wellFormed_term (g := g) OpTable.maxPriority hs
    dsimp only at h
    split at h
    · next f hv =>
      cases h
      have hval := ht.value
      rw [hv] at hval
      exact ⟨hval, ht.rest⟩
    · next e hv =>
      cases h
      have hval := ht.value
      rw [hv] at hval
      exact wellFormed_clauseEnd hval ht.rest

/-- All clauses of a text are well-formed, and so is what was complete before an error. -/
theorem wellFormed_of_mem_clauses {stream : LexemeStream} (hs : stream.VarNamed) :
    ∀ c ∈ g.clauses stream, ReadResult.ValueWellFormed c := by
  fun_induction clauses g stream with
  | case1 => simp
  | case2 stream r h ih =>
    have hr := wellFormed_clause? hs h
    intro c hc
    rcases List.mem_cons.1 hc with rfl | hc
    · exact hr.value
    · exact ih hr.rest c hc

end Grammar

end PrologTerms
