import PrologTerms.Text.CharClass
import PrologTerms.Token.Digits
import Mathlib.Data.List.TakeWhile

/-!
# Decimal digits

The digits in which a number is written are digits of a number token, and their value is the number.
-/

namespace PrologTerms

/-- The decimal digits are digits in the sense of tokens. -/
theorem isDigit_iff {c : Char} : isDigit c = true ↔ c.isDigit = true := by
  rw [Char.isDigit_iff_toNat]
  have h₀ : '0'.toNat = 48 := rfl
  have h₉ : '9'.toNat = 57 := rfl
  rw [h₀, h₉, isDigit, beq_iff_eq, CharClass.of]
  generalize c.toNat = n
  constructor
  · intro h
    split at h
    · unfold CharClass.ofLatin1 at h
      split_ifs at h with h₁ h₂ h₃ h₄
      exact h₄
    · split_ifs at h
  · rintro ⟨h₁, h₂⟩
    rw [if_pos (by omega), CharClass.ofLatin1, if_neg (by omega), if_neg (by omega),
      if_neg (by omega), if_pos ⟨h₁, h₂⟩]

theorem isDigit_of_mem_toDigits {n : Nat} {c : Char} (h : c ∈ Nat.toDigits 10 n) :
    isDigit c = true :=
  isDigit_iff.2 (Nat.isDigit_of_mem_toDigits (by decide) (by decide) h)

theorem isAlpha_of_isDigit {c : Char} (h : isDigit c = true) : isAlpha c = true := by
  simp [isAlpha, h]

/-- The value of a decimal digit. -/
theorem digitValue?_of_isDigit {c : Char} (h : isDigit c = true) :
    digitValue? c = some (c.toNat - '0'.toNat) := by
  obtain ⟨h₁, h₂⟩ := Char.isDigit_iff_toNat.1 (isDigit_iff.1 h)
  have hc : '0' ≤ c ∧ c ≤ '9' := ⟨h₁, h₂⟩
  rw [digitValue?, if_pos hc]

theorem isDigitOf_of_isDigit {c : Char} (h : isDigit c = true) : isDigitOf 10 c = true := by
  obtain ⟨h₁, h₂⟩ := Char.isDigit_iff_toNat.1 (isDigit_iff.1 h)
  have h₀ : '0'.toNat = 48 := rfl
  have h₉ : '9'.toNat = 57 := rfl
  rw [isDigitOf, digitValue?_of_isDigit h, Option.any_some, decide_eq_true_eq]
  omega

/-- The value of decimal digits is the number that they were made from. -/
theorem positional_toDigits (n : Nat) : positional 10 (Nat.toDigits 10 n) = n := by
  have hfold : ∀ (cs : List Char) (v : Nat), (∀ c ∈ cs, isDigit c = true) →
      cs.foldl (fun v c => 10 * v + (digitValue? c).getD 0) v = Nat.ofDigitChars 10 cs v := by
    intro cs
    induction cs with
    | nil => intro v _; rw [Nat.ofDigitChars_nil, List.foldl_nil]
    | cons c cs ih =>
      intro v h
      rw [List.foldl_cons, Nat.ofDigitChars_cons, digitValue?_of_isDigit (h c List.mem_cons_self)]
      exact ih _ fun c hc => h c (List.mem_cons_of_mem _ hc)
  rw [positional, hfold _ _ fun _ => isDigit_of_mem_toDigits, Nat.ofDigitChars_ten_toDigits]

theorem positional?_toDigits (n : Nat) : positional? 10 (Nat.toDigits 10 n) = some n := by
  have hall : (Nat.toDigits 10 n).all (isDigitOf 10) = true :=
    List.all_eq_true.2 fun c hc => isDigitOf_of_isDigit (isDigit_of_mem_toDigits hc)
  rw [positional?, if_pos ⟨Nat.toDigits_ne_nil, hall⟩, positional_toDigits]

/-- An integer token of the digits of a number has the number as its value. -/
theorem Token.naturalValue?_toDigits {t : Token} {n : Nat} (hk : t.kind = .natural)
    (hl : t.lexeme = String.ofList (Nat.toDigits 10 n)) : t.naturalValue? = some n := by
  have hquote : ∀ c ∈ Nat.toDigits 10 n, (c != '\'') = true := by
    intro c hc
    have hd := isDigit_of_mem_toDigits hc
    rw [bne_iff_ne]
    rintro rfl
    exact absurd hd (by decide)
  have hdrop : (Nat.toDigits 10 n).dropWhile (· != '\'') = [] := List.dropWhile_eq_nil_iff.2 hquote
  rw [naturalValue?, if_pos hk, hl]
  simp only [String.toList_ofList, hdrop]
  exact positional?_toDigits n

end PrologTerms
