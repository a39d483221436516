import PrologTerms.Proofs.Reading.Build
import PrologTerms.Proofs.Reading.Derivation
import PrologTerms.Proofs.Reading.Step

/-!
# Everything that is read has a derivation

While a term is being read, each frame accounts for some of the lexemes read so far: it is a piece of
a derivation, in which an operand of at most some priority is missing. All frames and the operand read
last account for all lexemes. This is kept by every step, and where reading ends no frame is left.
-/

namespace PrologTerms

/-! ## What a frame accounts for -/

/-- The lexemes of the complete terms in a bracket, the last one first, each with a comma behind it. -/
inductive ItemsBegunBy (ops : OpTable) : List Lexeme → List Expr → Prop
  /-- There is no term yet. -/
  | none : ItemsBegunBy ops [] []
  /-- There are terms. -/
  | some {ls : List Lexeme} {l : Lexeme} {before : List Expr} (h : AllReadFrom ops ls before.reverse)
      (hl : l.isPunct "," = true) : ItemsBegunBy ops (ls ++ [l]) before

/-- The lexemes are those of a frame at a place for terms of priority `max`, which waits for an operand
of priority `inner`. -/
inductive Frame.BegunBy (ops : OpTable) : Frame → List Lexeme → (max inner : Nat) → Prop
  /-- A left operand and an infix operator. -/
  | rightOperand {ls : List Lexeme} {l : Lexeme} {left : Expr} {name : String} {d : OpDef}
      {p max : Nat} (h : ReadFrom ops ls p left) (hp : p ≤ d.leftMax)
      (hl : l.operatorName? = some name) (hd : ops.between? name = some d) (hmax : d.priority ≤ max) :
      Frame.BegunBy ops (.rightOperand left l.operatorTerm d.priority max) (ls ++ [l]) max d.rightMax
  /-- A prefix operator. -/
  | onlyOperand {l : Lexeme} {d : OpDef} {max : Nat} (hl : l.token.kind = .name)
      (hd : ops.before? l.token.lexeme = some d) (hmax : d.priority ≤ max) :
      Frame.BegunBy ops (.onlyOperand l.token.lexeme d.priority max) [l] max d.rightMax
  /-- A round bracket. -/
  | paren {l : Lexeme} {max : Nat} (hl : l.isPunct "(" = true) :
      Frame.BegunBy ops (.contents .paren max) [l] max OpTable.maxPriority
  /-- A curly bracket. -/
  | curly {l : Lexeme} {max : Nat} (hl : l.isPunct "\x7b" = true) :
      Frame.BegunBy ops (.contents .curly max) [l] max OpTable.maxPriority
  /-- A name, a bracket, and arguments. -/
  | arguments {f l : Lexeme} {ls : List Lexeme} {before : List Expr} {max : Nat}
      (hf : f.token.kind = .name) (hl : l.isPunct "(" = true) (hright : l.layoutBefore = false)
      (h : ItemsBegunBy ops ls before) :
      Frame.BegunBy ops (.contents (.arguments f.token.lexeme before) max) (f :: l :: ls) max
        argumentMax
  /-- A square bracket and elements. -/
  | items {l : Lexeme} {ls : List Lexeme} {before : List Expr} {max : Nat}
      (hl : l.isPunct "[" = true) (h : ItemsBegunBy ops ls before) :
      Frame.BegunBy ops (.contents (.items before) max) (l :: ls) max argumentMax
  /-- A square bracket, elements, and a bar. -/
  | tail {l bar : Lexeme} {ls : List Lexeme} {before : List Expr} {max : Nat}
      (hl : l.isPunct "[" = true) (h : AllReadFrom ops ls before.reverse)
      (hbar : bar.isPunct "|" = true) :
      Frame.BegunBy ops (.contents (.tail before) max) (l :: ls ++ [bar]) max argumentMax

/-- The lexemes are those of all frames at a place for terms of priority `outer`, the innermost of
which waits for an operand of priority `inner`. -/
inductive FramesBegunBy (ops : OpTable) (outer : Nat) : List Frame → List Lexeme → (inner : Nat) → Prop
  /-- No term is begun. -/
  | none : FramesBegunBy ops outer [] [] outer
  /-- One more frame. -/
  | more {f : Frame} {frames : List Frame} {ls ls' : List Lexeme} {max inner : Nat}
      (hs : FramesBegunBy ops outer frames ls max) (h : f.BegunBy ops ls' max inner) :
      FramesBegunBy ops outer (f :: frames) (ls ++ ls') inner

/-- The lexemes are those that have been read where a term of priority `outer` is being read. -/
def ReadState.Accounts (ops : OpTable) (outer : Nat) (s : ReadState) (ls : List Lexeme) : Prop :=
  match s.focus with
  | .operand max => FramesBegunBy ops outer s.frames ls max
  | .behind e p max => ∃ ls₁ ls₂, ls = ls₁ ++ ls₂ ∧ FramesBegunBy ops outer s.frames ls₁ max ∧
      ReadFrom ops ls₂ p e ∧ p ≤ max

/-- What a step leads to accounts for the lexemes read before, and for those read by the step. -/
def Progress.Accounts (ops : OpTable) (outer : Nat) (ls : List Lexeme) (stream : LexemeStream) :
    Progress ReadState ReadResult → Prop
  | .more s => ∃ ls', stream = ls'.map .ok ++ s.stream ∧ s.Accounts ops outer (ls ++ ls')
  | .done r => ∀ e, r.value = .ok e → r.rest = stream ∧ ∃ p ≤ outer, ReadFrom ops ls p e

theorem ItemsBegunBy.more {ops : OpTable} {ls ls' : List Lexeme} {before : List Expr} {p : Nat}
    {e : Expr} (hs : ItemsBegunBy ops ls before) (h : ReadFrom ops ls' p e) (hp : p ≤ argumentMax) :
    AllReadFrom ops (ls ++ ls') (e :: before).reverse := by
  rw [List.reverse_cons]
  cases hs with
  | none => exact allReadFrom_one h hp
  | some hs hl =>
    rw [List.append_assoc]
    exact allReadFrom_more hs hl h hp

/-! ## Where an operand begins -/

/-- The beginning of an operand at a place for terms of priority `max` accounts for the lexemes that
it takes from the stream. -/
def Operand.Accounts (ops : OpTable) (max : Nat) (stream : LexemeStream) : Operand → Prop
  | .complete e rest => ∃ ls, stream = ls.map .ok ++ rest ∧ ReadFrom ops ls 0 e
  | .opened f inner rest => ∃ ls, stream = ls.map .ok ++ rest ∧ f.BegunBy ops ls max inner
  | .failed _ _ => True

namespace Grammar

variable {g : Grammar} {l l' : Lexeme} {rest stream : LexemeStream} {max outer : Nat}
  {frames : List Frame} {ls ls' : List Lexeme} {e : Expr} {p : Nat}

theorem accounts_plainName (hl : l.token.kind = .name) :
    (g.plainName max l.token.lexeme rest).Accounts g.ops max (.ok l :: rest) := by
  have hatom : (Operand.complete (.atom l.token.lexeme) rest).Accounts g.ops max (.ok l :: rest) :=
    ⟨[l], rfl, readFrom_atom hl⟩
  unfold plainName
  split
  · next d hd =>
    split
    · next h => exact ⟨[l], rfl, .onlyOperand hl hd h.1⟩
    · exact hatom
  · exact hatom

theorem accounts_name (hl : l.token.kind = .name) :
    (g.name max l.token.lexeme rest).Accounts g.ops max (.ok l :: rest) := by
  unfold Grammar.name
  split
  · exact accounts_plainName hl
  · trivial
  · next l' rest =>
    by_cases hb : l'.layoutBefore = true
    · rw [if_pos hb]
      exact accounts_plainName hl
    · rw [if_neg hb]
      have hright : l'.layoutBefore = false := by simpa using hb
      split
      · next hl' => exact ⟨[l, l'], rfl, .arguments hl hl' hright .none⟩
      · split
        · next h =>
          unfold Operand.ofInteger
          split
          · next n hn => exact ⟨[l, l'], rfl, readFrom_negative hl h.1 h.2 hright hn⟩
          · trivial
        · split
          · trivial
          · exact accounts_plainName hl

theorem accounts_operand (g : Grammar) (max : Nat) (stream : LexemeStream) :
    (g.operand max stream).Accounts g.ops max stream := by
  unfold operand
  split
  · trivial
  · trivial
  · next l rest =>
    split
    · next hl =>
      unfold Operand.ofInteger
      split
      · next n hn => exact ⟨[l], rfl, readFrom_natural hl hn⟩
      · trivial
    · trivial
    · next hl => exact ⟨[l], rfl, readFrom_var hl⟩
    · next hl => exact ⟨[l], rfl, readFrom_string hl⟩
    · next hl => exact accounts_name hl
    · split
      · next hl => exact ⟨[l], rfl, .paren hl⟩
      · split
        · next hl =>
          unfold Operand.ofBracket
          split
          · exact ⟨[l], rfl, .items hl .none⟩
          · trivial
          · next l' rest =>
            split
            · next hl' => exact ⟨[l, l'], rfl, readFrom_nil hl hl'⟩
            · exact ⟨[l], rfl, .items hl .none⟩
        · split
          · next hl =>
            unfold Operand.ofBracket
            split
            · exact ⟨[l], rfl, .curly hl⟩
            · trivial
            · next l' rest =>
              split
              · next hl' => exact ⟨[l, l'], rfl, readFrom_braces hl hl'⟩
              · exact ⟨[l], rfl, .curly hl⟩
          · trivial
    · trivial
    · trivial

/-! ## Steps -/

/-- The lexeme behind a term in brackets completes the derivation, or the bracket goes on. -/
theorem accounts_next? {b : Bracket} {inner : Nat} {r : BracketStep}
    (hb : (Frame.contents b max).BegunBy g.ops ls max inner) (he : ReadFrom g.ops ls' p e)
    (hp : p ≤ inner) (h : b.next? e l = some r) :
    match r with
    | .closed e' => ReadFrom g.ops (ls ++ ls' ++ [l]) 0 e'
    | .again b' => (Frame.contents b' max).BegunBy g.ops (ls ++ ls' ++ [l]) max argumentMax := by
  have hnext := Bracket.next_spec h
  cases hb with
  | paren hl =>
    cases hnext with
    | paren hl' => exact readFrom_paren hl he hp hl'
  | curly hl =>
    cases hnext with
    | curly hl' => exact readFrom_curly hl he hp hl'
  | arguments hf hl hright hs =>
    have hall := hs.more he hp
    cases hnext with
    | argument hl' =>
      have := @Frame.BegunBy.arguments _ _ _ _ _ max hf hl hright (.some hall hl')
      simpa using this
    | call hl' =>
      have := readFrom_call hf hl hright hall hl'
      simpa using this
  | items hl hs =>
    have hall := hs.more he hp
    cases hnext with
    | item hl' =>
      have := @Frame.BegunBy.items _ _ _ _ max hl (.some hall hl')
      simpa using this
    | bar hl' =>
      have := @Frame.BegunBy.tail _ _ _ _ _ max hl hall hl'
      simpa using this
    | list hl' =>
      have := readFrom_items hl hall hl'
      simpa using this
  | tail hl hs hbar =>
    cases hnext with
    | tail hl' =>
      have := readFrom_tail hl hs hbar he hp hl'
      simpa using this

theorem accounts_fail {es : List Expr} {err : ReadError} {rest' : LexemeStream} :
    (Progress.done (.fail frames es err rest')).Accounts g.ops outer ls stream := by
  intro e h
  cases h

theorem accounts_stepComplete (hf : FramesBegunBy g.ops outer frames ls max)
    (he : ReadFrom g.ops ls' p e) (hp : p ≤ max) :
    (g.stepComplete e stream frames).Accounts g.ops outer (ls ++ ls') stream := by
  cases hf with
  | none =>
    intro e' h
    cases h
    exact ⟨rfl, p, hp, he⟩
  | @more f frames ls₁ ls₂ max' _ hs hf =>
    cases f with
    | rightOperand left name priority m =>
      cases hf with
      | @rightOperand ls₂ l _ _ d q _ hleft hq hl hd hmax =>
        have := readFrom_between hl hd hleft hq he hp
        exact ⟨[], rfl, ls₁, _, by simp, hs, this, hmax⟩
    | onlyOperand name priority m =>
      cases hf with
      | onlyOperand hl hd hmax =>
        exact ⟨[], rfl, ls₁, _, by simp, hs, readFrom_before hl hd he hp, hmax⟩
    | contents b m =>
      obtain rfl : m = max' := by cases hf <;> rfl
      unfold stepComplete
      dsimp only
      unfold stepBracket
      split
      · exact accounts_fail
      · exact accounts_fail
      · next l rest =>
        split
        · next e' h =>
          exact ⟨[l], rfl, ls₁, _, by simp, hs, accounts_next? hf he hp h, Nat.zero_le _⟩
        · next b' h =>
          have := FramesBegunBy.more hs (accounts_next? hf he hp h)
          refine ⟨[l], rfl, ?_⟩
          simpa [ReadState.Accounts] using this
        · exact accounts_fail

theorem accounts_stepBehind (hf : FramesBegunBy g.ops outer frames ls max)
    (he : ReadFrom g.ops ls' p e) (hp : p ≤ max) :
    (g.stepBehind frames e p max stream).Accounts g.ops outer (ls ++ ls') stream := by
  unfold stepBehind
  split
  · exact accounts_stepComplete hf he hp
  · exact accounts_fail
  · next l rest =>
    split
    · exact accounts_stepComplete hf he hp
    · next d hd =>
      obtain ⟨hmax, hleft, name, hl, ⟨hs, hd⟩ | ⟨hs, hd⟩⟩ := operator?_eq_some hd
      · rw [if_pos hs]
        have := FramesBegunBy.more hf (.rightOperand he hleft hl hd hmax)
        refine ⟨[l], rfl, ?_⟩
        simpa [ReadState.Accounts] using this
      · rw [if_neg (by simp [hs])]
        exact ⟨[l], rfl, ls, _, by simp, hf, readFrom_behind hl hd he hleft, hmax⟩

/-- Every step accounts for the lexemes that it takes. -/
theorem accounts_step {s : ReadState} (hs : s.Accounts g.ops outer ls) :
    (g.step s).Accounts g.ops outer ls s.stream := by
  obtain ⟨frames, focus, stream⟩ := s
  cases focus with
  | behind e p max =>
    obtain ⟨ls₁, ls₂, rfl, hf, he, hp⟩ := hs
    exact accounts_stepBehind hf he hp
  | operand max =>
    have hf : FramesBegunBy g.ops outer frames ls max := hs
    have ho := g.accounts_operand max stream
    unfold step
    dsimp only
    split
    · next e rest h =>
      rw [h] at ho
      obtain ⟨ls', rfl, he⟩ := ho
      exact ⟨ls', rfl, ls, ls', rfl, hf, he, Nat.zero_le _⟩
    · next f inner rest h =>
      rw [h] at ho
      obtain ⟨ls', rfl, hf'⟩ := ho
      exact ⟨ls', rfl, hf.more hf'⟩
    · exact accounts_fail

/-- A term that was read to its end has a derivation from the lexemes taken. -/
theorem readFrom_finish {s : ReadState} (hs : s.Accounts g.ops outer ls)
    (h : (g.finish s).value = .ok e) : ∃ ls' p, s.stream = ls'.map .ok ++ (g.finish s).rest ∧
      p ≤ outer ∧ ReadFrom g.ops (ls ++ ls') p e := by
  fun_induction finish g s generalizing ls with
  | case1 s s' hstep ih =>
    have hacc := accounts_step hs
    rw [hstep] at hacc
    obtain ⟨ls₁, hstream, hs'⟩ := hacc
    obtain ⟨ls₂, p, hrest, hp, he⟩ := ih hs' h
    refine ⟨ls₁ ++ ls₂, p, ?_, hp, by rwa [← List.append_assoc]⟩
    rw [hstream, hrest, List.map_append, List.append_assoc]
  | case2 s r hstep =>
    have hacc := accounts_step hs
    rw [hstep] at hacc
    obtain ⟨hrest, p, hp, he⟩ := hacc e h
    exact ⟨[], p, by rw [hrest]; rfl, hp, by rwa [List.append_nil]⟩

/-- The lexemes behind the term of a clause: a full stop with layout behind it, or nothing, where the
text ends. -/
inductive EndsWith : LexemeStream → LexemeStream → Prop
  /-- A full stop. -/
  | stop {l : Lexeme} {rest : LexemeStream} (hl : l.token.kind = .stop)
      (hbehind : l.layoutBehind = true) : EndsWith (.ok l :: rest) rest
  /-- The end of the text. -/
  | textEnd : EndsWith [] []

theorem endsWith_clauseEnd {e' : Expr} (h : (g.clauseEnd e stream).value = .ok e') :
    e = e' ∧ EndsWith stream (g.clauseEnd e stream).rest := by
  unfold clauseEnd at h ⊢
  rcases stream with _ | ⟨err | l, rest⟩
  · cases h
    exact ⟨rfl, .textEnd⟩
  · cases h
  · dsimp only at h ⊢
    by_cases hl : l.token.kind = .stop
    · by_cases hb : l.layoutBehind = true
      · rw [if_pos hl, if_pos hb] at h ⊢
        cases h
        exact ⟨rfl, .stop hl hb⟩
      · rw [if_pos hl, if_neg hb] at h
        cases h
    · rw [if_neg hl] at h
      cases h

/-- The term of a clause has a derivation from the lexemes before its end. -/
theorem readFrom_clause? {r : ReadResult} (h : g.clause? stream = some r) (he : r.value = .ok e) :
    ∃ ls stop p, stream = ls.map .ok ++ stop ∧ EndsWith stop r.rest ∧ p ≤ OpTable.maxPriority ∧
      ReadFrom g.ops ls p e := by
  unfold clause? at h
  split at h
  · cases h
  · dsimp only at h
    split at h
    · next f hf =>
      cases h
      cases he
    · next e' he' =>
      cases h
      obtain ⟨rfl, hend⟩ := endsWith_clauseEnd he
      have hstart :
          (ReadState.start OpTable.maxPriority stream).Accounts g.ops OpTable.maxPriority [] :=
        FramesBegunBy.none
      obtain ⟨ls, p, hstream, hp, hfrom⟩ := readFrom_finish hstart he'
      exact ⟨ls, _, p, hstream, hend, hp, hfrom⟩

end Grammar

/-! ## Clauses -/

/-- Whatever was read before, and whatever is on the heap: if a clause of a text gives a term, then the
tree of this term has a derivation from the lexemes of the clause that stand before its end, with a
priority that is allowed. Two variables of the tree are the same exactly where the text has the same
name, and this is not `_`. -/
theorem OpTable.derives_clause {ops : OpTable} {text : String} {stream : LexemeStream}
    {r : ReadResult} {d : Draft} {c : Cell} (hd : d.Sound) (hs : stream <:+ LexemeStream.ofText text)
    (hr : (ops.grammar text).clause? stream = some r) (hc : (d.addClause r.value).1 = .ok c) :
    ∃ ls stop p t, stream = ls.map .ok ++ stop ∧ Grammar.EndsWith stop r.rest ∧
      p ≤ maxPriority ∧
      (d.addClause r.value).2.heap.resolve? (d.addClause r.value).2.atoms c = some t ∧
      ops.Derives ls p t ∧ Draft.NamedBy (ls.filterMap Lexeme.varName?) t.vars := by
  have hnamed : stream.VarNamed := fun l hl => LexemeStream.varNamed_ofText text l (hs.mem hl)
  have hval := (Grammar.wellFormed_clause? hnamed hr).value
  cases hv : r.value with
  | error f =>
    rw [hv] at hc
    cases hc
  | ok e =>
    rw [hv] at hc hval
    cases hc
    obtain ⟨ls, stop, p, hstream, hend, hp, hfrom⟩ := Grammar.readFrom_clause? hr hv
    -- a clause begins without variables
    have hd₀ : Draft.Sound { d with scope := [] } := ⟨hd.heap, hd.atoms, hd.names, by simp⟩
    have hb := Draft.builds_build hd₀ (Draft.scoped_of_nil rfl) e hval
    obtain ⟨t, ht, hdenotes, hassigns⟩ := hb.tree
    refine ⟨ls, stop, p, t, hstream, hend, hp, ht, hfrom.derives _ t hdenotes, ?_⟩
    rw [← hfrom.names]
    exact hassigns.namedBy hb.scope

/-- The second of two clauses, with an operator, a name in functional notation, a variable that comes
twice, and one without a name. -/
theorem OpTable.derives_clause_second : ∃ stream r c, stream <:+ LexemeStream.ofText "a. X = f(X, _)." ∧
    (standard.grammar "a. X = f(X, _).").clause? stream = some r ∧
    (Draft.addClause {} r.value).1 = .ok c ∧ ∃ ls stop p t, stream = ls.map .ok ++ stop ∧
      Grammar.EndsWith stop r.rest ∧ p ≤ maxPriority ∧
      (Draft.addClause {} r.value).2.heap.resolve? (Draft.addClause {} r.value).2.atoms c = some t ∧
      standard.Derives ls p t ∧ Draft.NamedBy (ls.filterMap Lexeme.varName?) t.vars := by
  have hd : Draft.Sound {} :=
    ⟨Heap.wellFormed_empty, AtomTable.wellFormed_fresh, fun p hp => (by cases hp), by simp⟩
  have hs : (LexemeStream.ofText "a. X = f(X, _).").drop 2 <:+
      LexemeStream.ofText "a. X = f(X, _)." := List.drop_suffix _ _
  obtain ⟨r, hr, c, hc⟩ : ∃ r, (standard.grammar "a. X = f(X, _).").clause?
      ((LexemeStream.ofText "a. X = f(X, _).").drop 2) = some r ∧
      ∃ c, (Draft.addClause {} r.value).1 = .ok c := by
    have hok : ((standard.grammar "a. X = f(X, _).").clause?
        ((LexemeStream.ofText "a. X = f(X, _).").drop 2)).any
        (fun r => (Draft.addClause {} r.value).1.isOk) = true := by decide +kernel
    obtain ⟨r, hr, hok⟩ := (Option.any_eq_true _ _).1 hok
    refine ⟨r, hr, ?_⟩
    generalize (Draft.addClause {} r.value).1 = value at hok
    cases value with
    | ok c => exact ⟨c, rfl⟩
    | error e => cases hok
  exact ⟨_, r, c, hs, hr, hc, derives_clause hd hs hr hc⟩

end PrologTerms
