import PrologTerms.Proofs.Session.Errors
import PrologTerms.Proofs.Token.Value

/-!
# Integers are read as they are written, or refused

Every integer token has the value that its piece of text stands for. Where an operand begins with one,
with a minus sign right before it or not, the operand is the integer if it fits into 64 bits, and else the
text is refused for just that reason. No integer is ever refused for want of a value.
-/

namespace PrologTerms

/-! ## Integer tokens have values -/

/-- An integer token of a text covers a piece of it that stands for one integer, its value. -/
structure Token.Counts (t : Token) (text : String) (v : Nat) : Prop where
  /-- The value. -/
  value : t.naturalValue? = some v
  /-- The piece of text that stands for it and for no other integer. -/
  literal : ∃ front piece back, t.span.Covers text front piece back ∧
    ∀ w, NumberLiteral piece.toList back.toList w ↔ w = v

theorem Token.exists_counts {t : Token} {text front piece back : String}
    (hcovers : t.span.Covers text front piece back)
    (h : LongestMatch t.kind t.lexeme piece.toList back.toList) (hk : t.kind = .natural) :
    ∃ v, t.Counts text v := by
  obtain ⟨v, -, hv⟩ := h.exists_value hk
  refine ⟨v, hv, front, piece, back, hcovers, fun w => ?_⟩
  rw [← h.naturalValue?_eq_some_iff hk, hv, Option.some.injEq]
  exact eq_comm

theorem LexemeStream.exists_counts {text : String} {l : Lexeme} (h : .ok l ∈ ofText text)
    (hk : l.token.kind = .natural) : ∃ v, l.token.Counts text v := by
  obtain ⟨item, k', -, hitem, n, front, piece, -, hgives⟩ := exists_gives h
  have hform := hgives.form l.token (hitem l rfl)
  have hcovers := hgives.covers
  rw [hitem l rfl] at hcovers
  exact Token.exists_counts hcovers (by rwa [String.toList_ofList]) hk

/-! ## Integers that are operands -/

/-- The integer of a value with a minus sign or without. -/
def signed (negative : Bool) (v : Nat) : Int := if negative then -(v : Int) else v

theorem fitsWord_iff {m : Int} :
    fitsWord m = true ↔ -9223372036854775808 ≤ m ∧ m ≤ 9223372036854775807 := by
  rw [fitsWord, Bool.and_eq_true, decide_eq_true_eq, decide_eq_true_eq]
  omega

/-- The integer of a token is its value if that fits, and otherwise too big. -/
theorem Token.integer_of_value {t : Token} {v : Nat} (h : t.naturalValue? = some v) (negative : Bool) :
    t.integer negative = if -9223372036854775808 ≤ signed negative v ∧
      signed negative v ≤ 9223372036854775807 then .ok (signed negative v) else .error .bigInteger := by
  rw [Token.integer, h]
  exact if_congr fitsWord_iff rfl rfl

/-- The stream begins with an integer token, or with a minus sign and an integer token right behind
it. -/
inductive LexemeStream.Numeral : LexemeStream → Bool → Lexeme → LexemeStream → Prop
  /-- Without a sign. -/
  | plain {l : Lexeme} {rest : LexemeStream} (hk : l.token.kind = .natural) :
    Numeral (.ok l :: rest) false l rest
  /-- With a minus sign. -/
  | minus {m l : Lexeme} {rest : LexemeStream} (hm : m.token.kind = .name) (hs : m.token.lexeme = "-")
    (hb : l.layoutBefore = false) (hk : l.token.kind = .natural) :
    Numeral (.ok m :: .ok l :: rest) true l rest

namespace LexemeStream

variable {stream rest : LexemeStream} {negative : Bool} {l : Lexeme}

theorem Numeral.kind (h : Numeral stream negative l rest) : l.token.kind = .natural := by
  cases h <;> assumption

theorem Numeral.mem (h : Numeral stream negative l rest) : .ok l ∈ stream := by
  cases h with
  | plain => exact List.mem_cons_self
  | minus => exact List.mem_cons_of_mem _ List.mem_cons_self

theorem Numeral.operand (h : Numeral stream negative l rest) (g : Grammar) (max : Nat) :
    g.operand max stream = .ofInteger l.token negative rest := by
  cases h with
  | plain hk => simp only [Grammar.operand, hk]
  | minus hm hs hb hk =>
    have hopen : l.isPunct "(" = false := by simp [Lexeme.isPunct, Token.isPunct, hk]
    simp only [Grammar.operand, hm, hs, Grammar.name, hb, hopen, hk, Bool.false_eq_true, if_false,
      and_self, if_true]

end LexemeStream

namespace Grammar

/-- Where an operand begins with an integer, the next step gives the integer, or the error that it is too
big. -/
theorem step_numeral (g : Grammar) {state : ReadState} {max : Nat} {negative : Bool} {l : Lexeme}
    {rest : LexemeStream} {v : Nat} (hf : state.focus = .operand max)
    (h : LexemeStream.Numeral state.stream negative l rest) (hv : l.token.naturalValue? = some v) :
    g.step state = if -9223372036854775808 ≤ signed negative v ∧
        signed negative v ≤ 9223372036854775807 then
      .more ⟨state.frames, .behind (.int (signed negative v)) 0 max, rest⟩
    else .done (.fail state.frames [] ⟨.bigInteger, l.token.span⟩ rest) := by
  simp only [step, hf, h.operand, Operand.ofInteger, Token.integer_of_value hv]
  by_cases hfits : -9223372036854775808 ≤ signed negative v ∧ signed negative v ≤ 9223372036854775807
  · simp only [if_pos hfits]
  · simp only [if_neg hfits]

end Grammar

/-! ## What is said of a text that is refused -/

/-- The faults that a text can be refused for. -/
def ReadFault.IsRead : ReadFault → Prop
  | .malformedNumber => False
  | .other _ => False
  | _ => True

theorem Grammar.Concerns.isRead {ops : OpTable} {text : String} {e : ReadError}
    (h : (ops.grammar text).Concerns (.ofText text) e) : e.fault.IsRead := by
  cases h with
  | token h =>
    obtain ⟨e', k, -, rfl⟩ := LexemeStream.exists_of_error_mem h
    trivial
  | @lexeme l f hl hf =>
    cases hf with
    | unexpected => trivial
    | stop => trivial
    | float => trivial
    | @integer negative _ hk h =>
      obtain ⟨v, hv⟩ := LexemeStream.exists_counts hl hk
      rw [Token.integer_of_value hv.value negative] at h
      split at h
      · cases h
      · cases h
        trivial
  | unexpectedEnd => trivial
  | missing => trivial

theorem take_two_append {s : String} (h : 2 ≤ s.toList.length) (t : String) :
    (s ++ t).toList.take 2 = s.toList.take 2 := by
  rw [String.toList_append, List.take_append_of_le_length h]

theorem Expectation.take_two_message (what : Expectation) (t : String) :
    (what.message ++ t).toList.take 2 ≠ ['m', 'a'] := by
  cases what with
  | bracket close =>
    rw [Expectation.message, String.append_assoc, String.append_assoc, take_two_append (by decide)]
    decide
  | _ =>
    rw [Expectation.message, take_two_append (by decide)]
    decide

theorem LexicalFault.take_two_message (f : LexicalFault) : f.message.toList.take 2 ≠ ['m', 'a'] := by
  have hfront : ∀ s t u : String, s.toList.take 2 = ['u', 'n'] →
      (s ++ t ++ u).toList.take 2 ≠ ['m', 'a'] := by
    intro s t u hs
    have hlen : 2 ≤ s.toList.length := by
      have := congrArg List.length hs
      simp only [List.length_take, List.length_cons, List.length_nil] at this
      omega
    rw [String.append_assoc, take_two_append hlen, hs]
    decide
  cases f with
  | badHexDigit c => exact hfront "unexpected hex character (" _ _ (by decide)
  | badControl c => exact hfront "unexpected control character (" _ _ (by decide)
  | unexpectedChar c => exact hfront "unexpected character (" _ _ (by decide)
  | _ => decide

/-- No text is refused with the words for a malformed number: already their first letters differ. -/
theorem ReadFault.IsRead.message_ne {f : ReadFault} (h : f.IsRead) : f.message ≠ "malformed number" := by
  have hne : f.message.toList.take 2 ≠ ['m', 'a'] := by
    cases f with
    | lexical f => exact f.take_two_message
    | expected what found =>
      cases found with
      | some s =>
        rw [ReadFault.message, String.append_assoc, String.append_assoc]
        exact what.take_two_message _
      | none => exact what.take_two_message _
    | malformedNumber | other => cases h
    | _ => decide
  intro heq
  rw [heq] at hne
  exact hne (by decide)

/-! ## All integers of a text -/

/-- Numbers are read exactly, or refused. Whatever the operators are, every integer token of a text has a
value, the one that its piece of text stands for. Wherever a clause is being read and an operand begins
with an integer, with a minus sign right before it or not, the operand is the integer with its sign if that
fits into 64 bits, and otherwise the text is refused there because the integer is too big. No text is
refused because an integer is malformed. -/
theorem numbers_exact (s : Session) (text : String) :
    (∀ n t, .ok t ∈ ((Cursor.ofText text).ask n).1 → t.kind = .natural → ∃ v, t.Counts text v) ∧
    (∀ (d : Draft) (n : Nat) (state : ReadState) (max : Nat) (negative : Bool) (l : Lexeme)
      (rest : LexemeStream),
      (s.ops.grammar text).Goes (.start OpTable.maxPriority
        ((Reader.ofText text d).after (s.ops.grammar text) n).stream) state →
      state.focus = .operand max → LexemeStream.Numeral state.stream negative l rest →
      ∃ v, l.token.Counts text v ∧
        (s.ops.grammar text).step state =
          if -9223372036854775808 ≤ signed negative v ∧ signed negative v ≤ 9223372036854775807 then
            .more ⟨state.frames, .behind (.int (signed negative v)) 0 max, rest⟩
          else .done (.fail state.frames [] ⟨.bigInteger, l.token.span⟩ rest)) ∧
    ReadFault.bigInteger.message = "big integers are not supported" ∧
    ∀ e, s.Reports text e → e.fault ≠ .malformedNumber ∧ e.message ≠ "malformed number" := by
  refine ⟨fun n t ht hk => ?_, fun d n state max negative l rest hgoes hf hnum => ?_, rfl,
    fun e he => ⟨fun hfault => ?_, he.concerns.isRead.message_ne⟩⟩
  · obtain ⟨front, piece, back, hcovers, -, -, hform⟩ := (Cursor.behind_ofText text).of_mem_ask ht
    exact Token.exists_counts hcovers (hform t rfl) hk
  · have hmem : .ok l ∈ LexemeStream.ofText text :=
      (hgoes.suffix.trans (Reader.suffix_after _ n (.ofText text d))).mem hnum.mem
    obtain ⟨v, hv⟩ := LexemeStream.exists_counts hmem hnum.kind
    exact ⟨v, hv, Grammar.step_numeral _ hf hnum hv.value⟩
  · have hread := he.concerns.isRead
    rw [hfault] at hread
    exact hread

/-- The second clause of a text is an integer in base sixteen with a minus sign and with zeros before the
base. The integer of another text is too small by one. -/
theorem numbers_exact_base :
    (∃ l rest, ((Reader.ofText "a. -0016'Ff." {}).after (OpTable.standard.grammar "a. -0016'Ff.") 1).stream =
        .ok ⟨⟨.name, "-", ⟨3, 4⟩, ⟨0, 3⟩⟩, true, false⟩ :: .ok l :: rest ∧
      .ok l.token ∈ ((Cursor.ofText "a. -0016'Ff.").ask 5).1 ∧ l.token.kind = .natural ∧
      l.token.Counts "a. -0016'Ff." 255 ∧
      (OpTable.standard.grammar "a. -0016'Ff.").step (.start OpTable.maxPriority (.ok
          ⟨⟨.name, "-", ⟨3, 4⟩, ⟨0, 3⟩⟩, true, false⟩ :: .ok l :: rest)) =
        .more ⟨[], .behind (.int (-255)) 0 OpTable.maxPriority, rest⟩) ∧
    Session.Reports {} "b(-9223372036854775809)." ⟨.bigInteger, ⟨3, 22⟩⟩ ∧
    ReadFault.bigInteger.message ≠ "malformed number" := by
  have hstream : ((Reader.ofText "a. -0016'Ff." {}).after
      (OpTable.standard.grammar "a. -0016'Ff.") 1).stream =
        [.ok ⟨⟨.name, "-", ⟨3, 4⟩, ⟨0, 3⟩⟩, true, false⟩,
          .ok ⟨⟨.natural, "0016'Ff", ⟨4, 11⟩, ⟨0, 4⟩⟩, false, false⟩,
          .ok ⟨⟨.stop, ".", ⟨11, 12⟩, ⟨0, 11⟩⟩, false, true⟩] := by decide +kernel
  have htoken : .ok ⟨.natural, "0016'Ff", ⟨4, 11⟩, ⟨0, 4⟩⟩ ∈
      ((Cursor.ofText "a. -0016'Ff.").ask 5).1 := by decide +kernel
  have hvalue : (⟨.natural, "0016'Ff", ⟨4, 11⟩, ⟨0, 4⟩⟩ : Token).naturalValue? = some 255 := by
    decide +kernel
  have hreports : Session.Reports {} "b(-9223372036854775809)." ⟨.bigInteger, ⟨3, 22⟩⟩ :=
    .parse (by decide +kernel)
  obtain ⟨hcounts, hstep, -, -⟩ := numbers_exact {} "a. -0016'Ff."
  obtain ⟨v, hv⟩ := hcounts 5 _ htoken rfl
  have hnum : LexemeStream.Numeral ((Reader.ofText "a. -0016'Ff." {}).after
      (OpTable.standard.grammar "a. -0016'Ff.") 1).stream true
      ⟨⟨.natural, "0016'Ff", ⟨4, 11⟩, ⟨0, 4⟩⟩, false, false⟩
      [.ok ⟨⟨.stop, ".", ⟨11, 12⟩, ⟨0, 11⟩⟩, false, true⟩] := by
    rw [hstream]
    exact .minus rfl rfl rfl rfl
  obtain ⟨w, hw, hmore⟩ :=
    hstep {} 1 _ OpTable.maxPriority true _ _ (Grammar.Goes.refl _) rfl hnum
  cases hv.value.symm.trans hvalue
  cases hw.value.symm.trans hvalue
  rw [hstream] at hmore
  exact ⟨⟨_, _, hstream, htoken, rfl, hv, hmore⟩, hreports,
    ((numbers_exact {} "b(-9223372036854775809).").2.2.2 _ hreports).2⟩

end PrologTerms
