import PrologTerms.Proofs.Reading.Closed
import PrologTerms.Proofs.Reading.Shift
import PrologTerms.Proofs.Reading.Sound
import PrologTerms.Proofs.Reading.Step
import PrologTerms.Proofs.Token.Cursor
import PrologTerms.Proofs.Token.Front
import PrologTerms.Proofs.Token.Newline

/-!
# The lexemes of two texts with a line break between them

If the first text has no malformed tokens and no open comment in brackets at its end, then its lexemes
come first, and those of the second text behind them, further on, and with layout before them.
-/

namespace PrologTerms

/-- The last token is a comment in brackets that is not closed. -/
def EndsInComment (items : List (Except LexicalError Token × Cursor)) : Prop :=
  ∃ t k depth, items.getLast? = some (.ok t, k) ∧ t.kind = .layout ∧
    LayoutMode.behind .between t.lexeme.toList = .block depth

theorem EndsInComment.cons {items : List (Except LexicalError Token × Cursor)}
    (h : EndsInComment items) (item : Except LexicalError Token × Cursor) :
    EndsInComment (item :: items) := by
  obtain ⟨t, k, depth, hlast, hopen⟩ := h
  refine ⟨t, k, depth, ?_, hopen⟩
  rw [List.getLast?_cons, hlast]
  rfl

/-- The same place in a text that has `more` behind it. -/
def Cursor.before (more : List Char) (k : Cursor) : Cursor := { k with rest := k.rest ++ more }

theorem Cursor.length_move_lt {c : Char} {cs : List Char} {value : Except LexicalFault (TokenKind × String)}
    {split : Split} (h : scanToken c cs = ⟨value, split⟩) : split.rest.length < (c :: cs).length := by
  have hwhole := whole_scanToken c cs
  have htaken := List.length_pos_iff.2 (taken_scanToken_ne_nil c cs)
  rw [h] at hwhole htaken
  rw [← hwhole]
  simp only [Scan.whole_mk, Split.whole, List.length_append]
  exact Nat.lt_add_of_pos_left htaken

namespace LexemeStream

variable {k k' : Cursor} {b : Bool} {c : Char} {cs front more : List Char} {n : Nat}

/-! ## Layout between two texts -/

/-- Behind layout, more of it changes nothing. -/
theorem ofItems_skip (k : Cursor) :
    ofItems true (k.move (splitLayout .between k.rest)).items = ofItems true k.items := by
  by_cases h : k.rest = [] ∨ startsLayout k.rest = false
  · rw [splitLayout_between h]
    rfl
  · rw [not_or, Bool.not_eq_false] at h
    obtain ⟨hne, hl⟩ := h
    obtain ⟨c, cs, hk⟩ := List.exists_cons_of_ne_nil hne
    rw [hk] at hl ⊢
    rw [Cursor.items_ok hk (scanToken_of_startsLayout hl), ofItems, if_pos rfl]

/-- Layout that goes on with a line break and the layout behind it is skipped. -/
theorem ofItems_of_layout (hk : k.rest = c :: cs) (hl : startsLayout (c :: cs) = true)
    (hsplit : splitLayout .between (c :: cs) = (splitLayout .between more).after (front ++ ['\n'])) :
    ofItems b k.items = ofItems true (k.move ⟨front ++ ['\n'], more⟩).items := by
  have hscan := scanToken_of_startsLayout hl
  rw [hsplit] at hscan
  rw [Cursor.items_ok hk hscan, ofItems, if_pos rfl, Cursor.move_after, whole_splitLayout]
  exact ofItems_skip (k.move ⟨front ++ ['\n'], more⟩)

/-- Behind a line break, layout goes on outside of comments, unless it was in a comment in brackets. -/
theorem splitLayout_line_break {m : LayoutMode} (hm : ∀ depth, m ≠ .block depth) (more : List Char) :
    splitLayout m ('\n' :: more) = (splitLayout .between more).after ['\n'] := by
  cases m with
  | between => exact splitLayout_char (by decide) more
  | line => rw [splitLayout_line_cons, if_pos rfl]
  | block depth => exact absurd rfl (hm depth)

/-- With a line break and `more` put at the end of the text, the lexemes behind a place are those that
were there and then those of `more`, with layout before them; unless there was an error, or a comment was
left open. -/
def Joins (more : List Char) (k : Cursor) : Prop :=
  ∀ b, (∀ x ∈ ofItems b k.items, ∃ l, x = .ok l) → ¬ EndsInComment k.items →
    ofItems b (k.before ('\n' :: more)).items =
      ofItems b k.items ++ ofItems true (k.move ⟨k.rest ++ ['\n'], more⟩).items

theorem joins_of_nil (hk : k.rest = []) : Joins more k := by
  intro b _ _
  have hbefore : (k.before ('\n' :: more)).rest = '\n' :: more := by rw [Cursor.before, hk]; rfl
  rw [Cursor.items_nil hk, hk]
  exact ofItems_of_layout hbefore (startsLayout_newline more [])
    (splitLayout_line_break (by simp) more)

/-- A token that is read in the same way in front of the line break. -/
theorem joins_of_token (hk : k.rest = c :: cs) {kind : TokenKind} {s : String} {split : Split}
    (h : scanToken c cs = ⟨.ok (kind, s), split⟩)
    (h' : scanToken c (cs ++ '\n' :: more) = ⟨.ok (kind, s), split.before ('\n' :: more)⟩)
    (hnext : Joins more (k.move split)) : Joins more k := by
  intro b hok hopen
  have hbefore : (k.before ('\n' :: more)).rest = c :: (cs ++ '\n' :: more) := by
    rw [Cursor.before, hk]
    rfl
  have hwhole : split.taken ++ split.rest = k.rest := by
    have hwhole := whole_scanToken c cs
    rw [h] at hwhole
    exact hwhole.trans hk.symm
  have hmove : (k.move split).move ⟨(k.move split).rest ++ ['\n'], more⟩ =
      k.move ⟨k.rest ++ ['\n'], more⟩ := by
    rw [← hwhole, List.append_assoc]
    exact (Cursor.move_after k split.taken ⟨split.rest ++ ['\n'], more⟩).symm
  have hitems := Cursor.items_ok hk h
  rw [hitems] at hok hopen
  have hopen' : ¬ EndsInComment (k.move split).items := fun h => hopen (h.cons _)
  rw [hitems, Cursor.items_ok hbefore h', ← hmove]
  by_cases hkind : kind = .layout
  · rw [ofItems, if_pos hkind] at hok ⊢
    rw [ofItems, if_pos hkind]
    exact hnext _ hok hopen'
  · rw [ofItems, if_neg hkind] at hok ⊢
    have hok' := fun x hx => hok x (List.mem_cons_of_mem _ hx)
    rw [ofItems, if_neg hkind, List.cons_append, ← hnext _ hok' hopen']
    show Except.ok (Lexeme.mk _ b (startsLayout (split.rest ++ '\n' :: more))) :: _ = _
    rw [startsLayout_newline]
    rfl

/-- Layout at the end of the text goes on behind the line break. -/
theorem joins_of_layout (hk : k.rest = c :: cs) (hl : startsLayout (c :: cs) = true)
    (hrest : (splitLayout .between (c :: cs)).rest = []) : Joins more k := by
  intro b _ hopen
  have hbefore : (k.before ('\n' :: more)).rest = c :: (cs ++ '\n' :: more) := by
    rw [Cursor.before, hk]
    rfl
  have hwhole : (splitLayout .between (c :: cs)).taken = c :: cs := by
    have hwhole := whole_splitLayout .between (c :: cs)
    rwa [Split.whole, hrest, List.append_nil] at hwhole
  have hitems := Cursor.items_ok hk (scanToken_of_startsLayout hl)
  rw [Cursor.items_nil (k := k.move _) hrest] at hitems
  have hmode : ∀ depth, LayoutMode.behind .between (c :: cs) ≠ .block depth := by
    intro depth hdepth
    refine hopen ⟨_, _, depth, by rw [hitems]; rfl, rfl, ?_⟩
    rw [String.toList_ofList, hwhole, hdepth]
  have hlayout := splitLayout_newline more .between (c :: cs)
  rw [if_pos hrest, splitLayout_line_break hmode more, Split.after_after] at hlayout
  rw [hitems, ofItems, if_pos rfl, hk]
  exact ofItems_of_layout hbefore ((startsLayout_newline more (c :: cs)).trans hl) hlayout

/-- The lexemes of the first text come first, and those behind the line break come behind them. -/
theorem joins (more : List Char) (k : Cursor) : Joins more k := by
  -- by induction on how much of the text is left: no token but the layout at its end can go on
  induction hlen : k.rest.length using Nat.strong_induction_on generalizing k with
  | _ n ih =>
  cases hk : k.rest with
  | nil => exact joins_of_nil hk
  | cons c cs =>
    cases hscan : scanToken c cs with
    | mk value split =>
      have hnext : Joins more (k.move split) := by
        refine ih _ ?_ _ rfl
        rw [← hlen, hk]
        exact Cursor.length_move_lt hscan
      cases value with
      | error f =>
        intro b hok
        rw [Cursor.items_error hk hscan, ofItems] at hok
        obtain ⟨l, e⟩ := hok _ List.mem_cons_self
        cases e
      | ok t =>
        cases hl : startsLayout (c :: cs) with
        | false =>
          exact joins_of_token hk hscan (scanToken_newline more hl hscan) hnext
        | true =>
          by_cases hrest : (splitLayout .between (c :: cs)).rest = []
          · exact joins_of_layout hk hl hrest
          · have hlayout := splitLayout_newline more .between (c :: cs)
            rw [if_neg hrest] at hlayout
            have hnewline := (scanToken_of_startsLayout ((startsLayout_newline more (c :: cs)).trans hl)).trans
              (congrArg (Split.token .layout) hlayout)
            rw [scanToken_of_startsLayout hl] at hscan
            cases hscan
            exact joins_of_token hk (scanToken_of_startsLayout hl) hnewline hnext

/-! ## Places further on -/

/-- The lexemes behind two places of texts with the same characters behind them are the same, but for
where they stand. -/
theorem shift_ofItems (hrest : k'.rest = k.rest) (hoffset : k'.offset = k.offset + n) :
    (ofItems b k'.items).shift 0 = (ofItems b k.items).shift n := by
  induction hlen : k.rest.length using Nat.strong_induction_on generalizing k k' b with
  | _ m ih =>
  cases hk : k.rest with
  | nil => rw [Cursor.items_nil hk, Cursor.items_nil (hrest.trans hk)]; rfl
  | cons c cs =>
    cases hscan : scanToken c cs with
    | mk value split =>
      have hlt : (k.move split).rest.length < m := by
        rw [← hlen, hk]
        exact Cursor.length_move_lt hscan
      have hoffset' : (k'.move split).offset = (k.move split).offset + n := by
        simp only [Cursor.move, hoffset, Nat.add_right_comm]
      have hsame : ∀ b, (ofItems b (k'.move split).items).shift 0 =
          (ofItems b (k.move split).items).shift n := fun b => ih _ hlt rfl hoffset' rfl
      cases value with
      | error f =>
        rw [Cursor.items_error hk hscan, Cursor.items_error (hrest.trans hk) hscan, ofItems, ofItems,
          shift_error, shift_error, hsame]
        simp only [LexicalError.toReadError, ReadError.shift, Span.shift, hoffset, hoffset', Nat.add_zero]
      | ok t =>
        obtain ⟨kind, s⟩ := t
        rw [Cursor.items_ok hk hscan, Cursor.items_ok (hrest.trans hk) hscan, ofItems, ofItems]
        by_cases hkind : kind = .layout
        · rw [if_pos hkind, if_pos hkind, hsame]
        · rw [if_neg hkind, if_neg hkind, shift_ok, shift_ok, hsame]
          simp only [Lexeme.shift, Span.shift, hoffset, hoffset', Nat.add_zero]
          rfl

end LexemeStream

/-! ## Layout before the first lexeme -/

namespace Grammar

variable {g : Grammar} {s s' : ReadState}

theorem finish_congr (h : g.step s = g.step s') : g.finish s = g.finish s' := by
  cases e : g.step s with
  | more s₁ => rw [finish_of_more e, finish_of_more (h.symm.trans e)]
  | done r => rw [finish_of_done e, finish_of_done (h.symm.trans e)]

/-- Layout before a clause makes no difference. -/
theorem clauses_layoutBefore (g : Grammar) (t : Token) (b b' behind : Bool) (rest : LexemeStream) :
    g.clauses (.ok ⟨t, b, behind⟩ :: rest) = g.clauses (.ok ⟨t, b', behind⟩ :: rest) := by
  -- layout before a lexeme only matters behind a name, and nothing is read before a clause
  have hoperand : ∀ max, g.operand max (.ok ⟨t, b, behind⟩ :: rest) =
      g.operand max (.ok ⟨t, b', behind⟩ :: rest) := fun _ => rfl
  have hterm : g.term OpTable.maxPriority (.ok ⟨t, b, behind⟩ :: rest) =
      g.term OpTable.maxPriority (.ok ⟨t, b', behind⟩ :: rest) := by
    refine finish_congr ?_
    simp only [step, ReadState.start, hoperand]
  have hclause : g.clause? (.ok ⟨t, b, behind⟩ :: rest) = g.clause? (.ok ⟨t, b', behind⟩ :: rest) := by
    simp only [clause?, hterm]
    rfl
  rw [clauses, clauses, hclause]

theorem clauses_ofItems (g : Grammar) (b b' : Bool)
    (items : List (Except LexicalError Token × Cursor)) :
    g.clauses (LexemeStream.ofItems b items) = g.clauses (LexemeStream.ofItems b' items) := by
  match items with
  | [] => rfl
  | (.error e, k) :: items => rfl
  | (.ok t, k) :: items =>
    rw [LexemeStream.ofItems, LexemeStream.ofItems]
    split
    · rfl
    · exact g.clauses_layoutBefore t b b' _ _

/-! ## Two texts -/

/-- Where no clause has an error, there are none among the lexemes. -/
theorem ok_of_clauses {g : Grammar} {stream : LexemeStream} {es : List Expr}
    (h : g.clauses stream = es.map .ok) : ∀ x ∈ stream, ∃ l, x = .ok l := by
  fun_induction clauses g stream generalizing es with
  | case1 stream hnone =>
    obtain rfl := clause?_eq_none hnone
    simp
  | case2 stream r hr ih =>
    cases es with
    | nil => cases h
    | cons e es =>
      obtain ⟨hv, hes⟩ := List.cons.inj h
      obtain ⟨ls, stop, p, rfl, hend, -⟩ := readFrom_clause? hr hv
      have hrest := ih hes
      have hstop : ∀ x ∈ stop, ∃ l, x = .ok l := by
        intro x hx
        generalize r.rest = rest at hend hrest
        cases hend with
        | stop hl hbehind =>
          rcases List.mem_cons.1 hx with rfl | hx
          · exact ⟨_, rfl⟩
          · exact hrest x hx
        | textEnd => cases hx
      intro x hx
      rcases List.mem_append.1 hx with hx | hx
      · obtain ⟨l, -, rfl⟩ := List.mem_map.1 hx
        exact ⟨l, rfl⟩
      · exact hstop x hx

/-- If all clauses of a text can be read, the last of them with a full stop, and no comment is open at
the end, then its clauses and those of a second text are the clauses of both texts with a line break
between them, with the errors of the second text further on. -/
theorem clauses_newline {ops : OpTable} {text₁ : String} {es : List Expr}
    (hes : (ops.grammar text₁).clauses (.ofText text₁) = es.map .ok)
    (hstop : ∀ l, (LexemeStream.ofText text₁).getLast? = some (.ok l) → l.token.kind = .stop)
    (hopen : ¬ EndsInComment (Cursor.ofText text₁).items) (text₂ : String) :
    (ops.grammar (text₁ ++ "\n" ++ text₂)).clauses (.ofText (text₁ ++ "\n" ++ text₂)) =
      es.map .ok ++ ((ops.grammar text₂).clauses (.ofText text₂)).map
        (Except.mapError (ReadFailure.shift (utf8Length text₁.toList + 1))) := by
  let k := (Cursor.ofText text₁).move ⟨text₁.toList ++ ['\n'], text₂.toList⟩
  have hok := ok_of_clauses hes
  have hclosed : LexemeStream.ofText text₁ = [] ∨ (LexemeStream.ofText text₁).Closed := by
    cases hlast : (LexemeStream.ofText text₁).getLast? with
    | none => exact .inl (List.getLast?_eq_none_iff.1 hlast)
    | some x =>
      obtain ⟨l, rfl⟩ := hok x (List.mem_of_getLast? hlast)
      exact .inr ⟨l, hlast, hstop l hlast⟩
  have hstream : LexemeStream.ofText (text₁ ++ "\n" ++ text₂) =
      LexemeStream.ofText text₁ ++ LexemeStream.ofItems true k.items := by
    have happend := LexemeStream.joins text₂.toList (.ofText text₁) false hok hopen
    have hcursor : Cursor.ofText (text₁ ++ "\n" ++ text₂) =
        (Cursor.ofText text₁).before ('\n' :: text₂.toList) := by
      simp [Cursor.ofText, Cursor.before]
    rw [LexemeStream.ofText, hcursor]
    exact happend
  have hoffset : k.offset = (Cursor.ofText text₂).offset + (utf8Length text₁.toList + 1) := by
    show 0 + utf8Length (text₁.toList ++ ['\n']) = 0 + _
    rw [utf8Length_append]
    rfl
  have hshifted : (ops.grammar text₂).Shifted (utf8Length text₁.toList + 1)
      (ops.grammar (text₁ ++ "\n" ++ text₂)) := by
    refine ⟨fun _ _ => rfl, ?_⟩
    show utf8Length (text₁ ++ "\n" ++ text₂).toList = utf8Length text₂.toList + _
    rw [String.toList_append, String.toList_append, utf8Length_append, utf8Length_append, Nat.add_comm]
    rfl
  have hops : (ops.grammar (text₁ ++ "\n" ++ text₂)).ops = (ops.grammar text₁).ops := rfl
  have hshift : (LexemeStream.ofItems true k.items).shift 0 =
      (LexemeStream.ofItems true (Cursor.ofText text₂).items).shift (utf8Length text₁.toList + 1) :=
    LexemeStream.shift_ofItems rfl hoffset
  rw [hstream, clauses_append _ hops hclosed hes, hshifted.clauses_of_shift hshift,
    clauses_ofItems _ true false]
  rfl

end Grammar

end PrologTerms
