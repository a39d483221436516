import PrologTerms.Proofs.Token.Quoted
import PrologTerms.Proofs.Token.Tiling
import PrologTerms.Proofs.Writing.Lexeme

/-!
# Written atoms are read as they are

What is written for a name is one token, which says the name; and quotes are written exactly where the
name on its own is not.
-/

namespace PrologTerms

variable {name : String}

/-! ## One token -/

namespace Cursor

/-- The token that is read from the whole of a text is all that comes. -/
theorem items_ofText_of_scansAs {cs : List Char} {kind : TokenKind} {s : String}
    (h : ScansAs cs [] kind s) : ∃ k, (ofText (String.ofList cs)).items =
      [(.ok ⟨kind, s, ⟨0, (String.ofList cs).utf8ByteSize⟩, {}⟩, k)] := by
  have hrest : (ofText (String.ofList cs)).rest = cs ++ [] := by
    rw [rest_ofText, String.toList_ofList, List.append_nil]
  refine ⟨(ofText (String.ofList cs)).move ⟨cs, []⟩, ?_⟩
  rw [items_of_scansAs hrest h, items_nil rfl, utf8ByteSize_ofList]
  simp only [ofText, move, Nat.zero_add]

end Cursor

/-! ## Names that need no quotes -/

/-- What stands between quotes is not longer than it is written. -/
theorem QuotedBody.length_le {q : Char} {cs ds : List Char} (h : QuotedBody q cs ds) :
    ds.length ≤ cs.length := by
  induction h with
  | nil => exact Nat.le_refl 0
  | plain _ _ _ ih => exact Nat.succ_le_succ ih
  | doubled _ ih =>
    rw [List.length_cons, List.length_cons, List.length_cons]
    omega
  | @escape es cs ds d _ _ ih =>
    have hd : d.toList.length ≤ 1 := by cases d <;> simp
    rw [List.length_append, List.length_append, List.length_cons]
    omega

/-- A text that is read as the name that it is needs no quotes. -/
theorem LongestMatch.needsQuotes {rest : List Char} (h : LongestMatch .name name name.toList rest) :
    needsQuotes name = false := by
  generalize e : name.toList = cs at h
  cases h with
  | word hc hcs _ =>
    rw [PrologTerms.needsQuotes, e]
    dsimp only
    rw [if_pos hc, Bool.not_eq_false', List.all_cons, Bool.and_eq_true, List.all_eq_true]
    exact ⟨by simp [isAlpha, hc], hcs⟩
  | symbol hne hcs hcomment hdot _ =>
    obtain ⟨c, cs, rfl⟩ := List.exists_cons_of_ne_nil hne
    have hsmall : isSmall c = false := by
      have hc := hcs c List.mem_cons_self
      rw [isSymbol, beq_iff_eq] at hc
      rw [isSmall, hc]
      rfl
    have hname : String.ofList (c :: cs) ≠ "." := by
      intro h
      exact hdot (String.ofList_inj.1 h)
    rw [PrologTerms.needsQuotes, e]
    dsimp only
    rw [hsmall, if_neg Bool.false_ne_true]
    split
    · rfl
    · rw [← hasComment_iff, Bool.not_eq_true] at hcomment
      rw [List.all_eq_true.2 hcs, decide_eq_false hname, hcomment]
      rfl
  | solo hc =>
    rw [isSolo, beq_iff_eq] at hc
    rcases eq_of_solo hc with rfl | rfl
    · rfl
    · rfl
  | quoted h _ =>
    have hlen := h.length_le
    rw [String.toList_ofList] at e
    rw [e, List.length_append, List.length_cons] at hlen
    omega

/-! ## Writing and reading -/

/-- The text is one token, a name, and the name is what the text says. -/
def IsNameText (text : String) : Prop :=
  ∃ t k, (Cursor.ofText text).items = [(.ok t, k)] ∧ t.kind = .name ∧ t.lexeme = text

theorem isNameText_iff (h₁ : name ≠ "[]") (h₂ : name ≠ "{}") :
    IsNameText name ↔ needsQuotes name = false := by
  constructor
  · rintro ⟨t, k, hitems, hkind, hname⟩
    obtain ⟨hnext, hmore⟩ := Cursor.next?_of_items_cons hitems
    obtain ⟨cs, hcs, hscan⟩ := Cursor.scansAs_of_next? hnext
    rw [Cursor.rest_of_items_nil hmore] at hcs hscan
    rw [Cursor.rest_ofText, List.append_nil] at hcs
    rw [hkind, hname, ← hcs] at hscan
    exact hscan.longestMatch.needsQuotes
  · intro h
    have hscan := scansAs_atomText h₁ h₂ (apart_nil _)
    rw [atomText, if_neg (by rw [h]; exact Bool.false_ne_true)] at hscan
    obtain ⟨k, hitems⟩ := Cursor.items_ofText_of_scansAs hscan
    rw [String.ofList_toList] at hitems
    exact ⟨_, k, hitems, rfl, rfl⟩

/-- What is written for a name is one token, which says the name and covers what is written; and quotes
are needed if and only if the name on its own is not one token that says the name. -/
theorem items_atomText (h₁ : name ≠ "[]") (h₂ : name ≠ "{}") :
    (∃ k, (Cursor.ofText (String.ofList (atomText name))).items =
      [(.ok ⟨.name, name, ⟨0, (String.ofList (atomText name)).utf8ByteSize⟩, {}⟩, k)]) ∧
    (needsQuotes name = false ↔ IsNameText name) :=
  ⟨Cursor.items_ofText_of_scansAs (scansAs_atomText h₁ h₂ (apart_nil _)), (isNameText_iff h₁ h₂).symm⟩

/-- A control character, a quote and a character without a class are written in quotes. -/
theorem items_atomText_control : "a\x01'☃" ≠ "[]" ∧ "a\x01'☃" ≠ "{}" ∧
    String.ofList (atomText "a\x01'☃") = "'a\\x01\\'☃'" ∧
    (∃ k, (Cursor.ofText (String.ofList (atomText "a\x01'☃"))).items =
      [(.ok ⟨.name, "a\x01'☃", ⟨0, (String.ofList (atomText "a\x01'☃")).utf8ByteSize⟩, {}⟩, k)]) ∧
    ¬ IsNameText "a\x01'☃" := by
  have h₁ : "a\x01'☃" ≠ "[]" := by decide
  have h₂ : "a\x01'☃" ≠ "{}" := by decide
  obtain ⟨hitems, hquotes⟩ := items_atomText h₁ h₂
  refine ⟨h₁, h₂, by decide +kernel, hitems, ?_⟩
  rw [← hquotes]
  decide +kernel

end PrologTerms
