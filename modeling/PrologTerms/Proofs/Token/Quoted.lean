import PrologTerms.Proofs.Token.Front

/-!
# Written names are read as names

A name in quotes is read as the name, whatever characters it has, and so is a name without quotes that
needs none.
-/

namespace PrologTerms

variable {name : String} {rest : List Char}

/-! ## Escape sequences -/

theorem hexValue?_digitChar : ∀ d < 16, hexValue? (Nat.digitChar d) = some d := by decide

/-- A byte is written with two hexadecimal digits. -/
theorem toList_hexByte {n : Nat} (h : n < 256) :
    (hexByte n).toList = [Nat.digitChar (n / 16), Nat.digitChar (n % 16)] := by
  unfold hexByte hexDigits
  split
  · next hn =>
    have h₁ : n / 16 = 0 := by omega
    have h₂ : n % 16 = n := by omega
    rw [h₁, h₂, Nat.toDigits_of_lt_base hn, String.toList_append, String.toList_ofList,
      String.toList_ofList]
    rfl
  · next hn =>
    rw [String.toList_ofList, Nat.toDigits_of_base_le (by decide) (by omega),
      Nat.toDigits_of_lt_base (by omega : n / 16 < 16)]
    rfl

theorem escape_hexByte {c : Char} (h : c.toNat < 256) (rest : List Char) :
    Escape ('x' :: (hexByte c.toNat).toList) (some c) rest := by
  have hn : 16 * (c.toNat / 16) + c.toNat % 16 = c.toNat := by omega
  have hpair : Escape ['x', Nat.digitChar (c.toNat / 16), Nat.digitChar (c.toNat % 16)]
      (some (Char.ofNat (16 * (c.toNat / 16) + c.toNat % 16))) rest :=
    .hex (hexValue?_digitChar _ (by omega)) (hexValue?_digitChar _ (by omega))
  rw [hn, Char.ofNat_toNat] at hpair
  rwa [toList_hexByte h]

/-! ## Between quotes -/

/-- What is written for a character between quotes stands for the character. -/
theorem quotedBody_quotedNameChar {cs ds : List Char} (c : Char) (h : QuotedBody '\'' cs ds) :
    QuotedBody '\'' (quotedNameChar c ++ cs) (c :: ds) := by
  have hself : ∀ c : Char, c = '\'' ∨ c = '\\' → ∀ rest, Escape [c] (some c) rest := by
    rintro c (rfl | rfl) rest
    · exact .self rfl (by decide) (by decide) (by decide)
    · exact .self rfl (by decide) (by decide) (by decide)
  unfold quotedNameChar
  by_cases h₁ : c = '\''
  · rw [if_pos h₁, h₁]
    exact .escape (hself _ (.inl rfl) _) h
  by_cases h₂ : c = '\\'
  · rw [if_neg h₁, if_pos h₂, h₂]
    exact .escape (hself _ (.inr rfl) _) h
  by_cases h₃ : c = '\n'
  · rw [if_neg h₁, if_neg h₂, if_pos h₃, h₃]
    exact .escape (d := some '\n') (.letter rfl) h
  by_cases h₄ : c = '\t'
  · rw [if_neg h₁, if_neg h₂, if_neg h₃, if_pos h₄, h₄]
    exact .escape (d := some '\t') (.letter rfl) h
  rw [if_neg h₁, if_neg h₂, if_neg h₃, if_neg h₄]
  split
  · next hcode =>
    have hlt : c.toNat < 256 := by
      rcases hcode with hcode | hcode <;> omega
    exact .escape (escape_hexByte hlt _) h
  · exact .plain h₁ h₂ h

theorem quotedBody_flatMap (cs : List Char) : QuotedBody '\'' (cs.flatMap quotedNameChar) cs := by
  induction cs with
  | nil => exact .nil
  | cons c cs ih => exact quotedBody_quotedNameChar c ih

/-! ## Names -/

/-- A name in quotes is read as the name. -/
theorem scansAs_quotedName (hr : Apart (quotedName name) rest) :
    ScansAs (quotedName name) rest .name name := by
  have hhead : rest.head? ≠ some '\'' := by
    intro h
    exact absurd (hr.mem _ h) (by decide)
  have hscan := scansAs_quoted (quotedBody_flatMap name.toList) hhead (.inl ⟨rfl, rfl⟩)
  rwa [String.ofList_toList] at hscan

theorem hasComment_iff (cs : List Char) : hasComment cs = true ↔ ['/', '*'] <:+: cs := by
  fun_induction hasComment cs with
  | case1 => simp
  | case2 cs => exact iff_of_true rfl ⟨[], cs, rfl⟩
  | case3 c cs hne ih =>
    rw [ih, List.infix_cons_iff, or_iff_right]
    rintro ⟨rest, e⟩
    cases e
    exact hne _ rfl rfl

/-- A name that is written without quotes is a word, a symbol name or a name of brackets or of a
single character. -/
theorem needsQuotes_eq_false (h : needsQuotes name = false) : ∃ c cs, name.toList = c :: cs ∧
    ((isSmall c = true ∧ ∀ d ∈ c :: cs, isAlpha d = true) ∨
      name ∈ ["[]", "{}", "!", ";"] ∨
      ((∀ d ∈ c :: cs, isSymbol d = true) ∧ name ≠ "." ∧ hasComment (c :: cs) = false)) := by
  unfold needsQuotes at h
  split at h
  · cases h
  · next c cs e =>
    refine ⟨c, cs, e, ?_⟩
    split at h
    · next hc =>
      rw [Bool.not_eq_false', List.all_eq_true] at h
      exact .inl ⟨hc, h⟩
    · split at h
      · next hm => exact .inr (.inl hm)
      · rw [Bool.or_eq_false_iff, Bool.or_eq_false_iff] at h
        obtain ⟨⟨h₁, h₂⟩, h₃⟩ := h
        rw [Bool.not_eq_false', List.all_eq_true] at h₁
        exact .inr (.inr ⟨h₁, of_decide_eq_false h₂, h₃⟩)

/-- A name is written so that it is read as the name. -/
theorem scansAs_atomText (h₁ : name ≠ "[]") (h₂ : name ≠ "{}") (hr : Apart (atomText name) rest) :
    ScansAs (atomText name) rest .name name := by
  unfold atomText at hr ⊢
  split
  · next h =>
    rw [if_pos h] at hr
    exact scansAs_quotedName hr
  · next h =>
    rw [if_neg h] at hr
    rw [Bool.not_eq_true] at h
    obtain ⟨c, cs, e, hform⟩ := needsQuotes_eq_false h
    have hname : String.ofList (c :: cs) = name := by rw [← e, String.ofList_toList]
    rw [e] at hr ⊢
    rw [← hname]
    rcases hform with ⟨hc, hall⟩ | hm | ⟨hall, hdot, hcomment⟩
    · exact scansAs_word hc hall hr
    · have hsolo : name = "!" ∨ name = ";" := by simpa [h₁, h₂] using hm
      rcases hsolo with rfl | rfl
      all_goals
        cases e
        exact scansAs_solo (by decide) rest
    · have hrest := (hr.not_symbol fun d hd => .inl (hall d hd)).2
      rw [← Bool.not_eq_true, hasComment_iff] at hcomment
      refine scansAs_symbol (List.cons_ne_nil c cs) hall hcomment ?_ fun r hr hsymbol => ?_
      · intro hcs
        rw [hcs] at hname
        exact hdot (hname ▸ rfl)
      · rw [hrest r hr] at hsymbol
        cases hsymbol

end PrologTerms
