import PrologTerms.Proofs.Token.Digits
import PrologTerms.Proofs.Token.Longest
import PrologTerms.Proofs.Token.Parts
import Mathlib.Data.List.Forall2
import Mathlib.Data.Nat.Digits.Defs

/-!
# The values of integers

What an integer in a text stands for, said without the functions that read it: digits have a value by
their places, a character literal has the code of its character. The value of an integer token is what
the piece of text stands for that it was read from.
-/

namespace PrologTerms

/-- The digits in the order of their values. A capital letter counts as the small one. -/
def digitRow : List Char := "0123456789abcdefghijklmnopqrstuvwxyz".toList

/-- The row of digits stands for the number in the given base. -/
def Denotes (base : Nat) (cs : List Char) (v : Nat) : Prop :=
  ∃ ds : List Nat, List.Forall₂ (fun c d => d < base ∧ digitRow[d]? = some c.toLower) cs ds ∧
    v = Nat.ofDigits base ds.reverse

/-- The first text, with the second one behind it, stands for the integer. -/
inductive NumberLiteral : List Char → List Char → Nat → Prop
  /-- Decimal digits. -/
  | decimal {cs rest : List Char} {v : Nat} (hne : cs ≠ []) (h : Denotes 10 cs v) :
    NumberLiteral cs rest v
  /-- A base in decimal digits, a quote, and digits of the base. -/
  | based {bs cs rest : List Char} {base v : Nat} (hb : Denotes 10 bs base)
    (hbase : 2 ≤ base ∧ base ≤ 36) (hne : cs ≠ []) (h : Denotes base cs v) :
    NumberLiteral (bs ++ '\'' :: cs) rest v
  /-- A character behind `0'`, as it is or by an escape sequence. -/
  | literal {cs rest : List Char} {d : Char} (h : LiteralItem cs d rest) :
    NumberLiteral ('0' :: '\'' :: cs) rest d.toNat

variable {base : Nat} {cs : List Char}

/-! ## Digits -/

/-- A character with a value as a digit stands in the row of digits at its value. -/
theorem digitRow_of_digitValue? {c : Char} {d : Nat} (h : digitValue? c = some d) :
    digitRow[d]? = some c.toLower := by
  have hall : ∀ n < 128, ∀ d ∈ digitValue? (Char.ofNat n),
      digitRow[d]? = some (Char.ofNat n).toLower := by decide +kernel
  have hlt : c.toNat < 128 := by
    unfold digitValue? at h
    split at h
    · next hc => exact Nat.lt_of_le_of_lt hc.2 (by decide)
    · split at h
      · next hc => exact Nat.lt_of_le_of_lt hc.2 (by decide)
      · split at h
        · next hc => exact Nat.lt_of_le_of_lt hc.2 (by decide)
        · cases h
  have hc := hall c.toNat hlt d
  rw [Char.ofNat_toNat] at hc
  exact hc h

theorem isDigitOf_iff {c : Char} : isDigitOf base c = true ↔ ∃ d < base, digitValue? c = some d := by
  rw [isDigitOf, Option.any_eq_true]
  constructor
  · rintro ⟨d, hd, h⟩
    exact ⟨d, of_decide_eq_true h, hd⟩
  · rintro ⟨d, h, hd⟩
    exact ⟨d, hd, decide_eq_true h⟩

theorem positional_eq_ofDigits (base : Nat) (cs : List Char) : positional base cs =
    Nat.ofDigits base (cs.map fun c => (digitValue? c).getD 0).reverse := by
  rw [Nat.ofDigits_eq_foldr, List.foldr_reverse, List.foldl_map, positional]
  congr 1
  funext v c
  exact Nat.add_comm _ _

/-- The value of a row of digits by their places is the number that it stands for. -/
theorem denotes_positional (h : ∀ c ∈ cs, isDigitOf base c = true) :
    Denotes base cs (positional base cs) := by
  refine ⟨_, ?_, positional_eq_ofDigits base cs⟩
  rw [List.forall₂_map_right_iff, List.forall₂_same]
  intro c hc
  obtain ⟨d, hd, hv⟩ := isDigitOf_iff.1 (h c hc)
  rw [hv, Option.getD_some]
  exact ⟨hd, digitRow_of_digitValue? hv⟩

theorem Denotes.unique {v w : Nat} (hv : Denotes base cs v) (hw : Denotes base cs w) : v = w := by
  have hnodup : digitRow.Nodup := by decide
  obtain ⟨ds, hds, rfl⟩ := hv
  obtain ⟨es, hes, rfl⟩ := hw
  have heq : ds = es := by
    refine List.right_unique_forall₂' (fun c d e hd he => ?_) hds hes
    have hd' := hd.2
    obtain ⟨hlt, -⟩ := List.getElem?_eq_some_iff.1 hd'
    exact (List.getElem?_inj hlt hnodup).1 (hd'.trans he.2.symm)
  rw [heq]

theorem Denotes.not_quote {v : Nat} (h : Denotes base cs v) : '\'' ∉ cs := by
  obtain ⟨ds, hds, -⟩ := h
  induction hds with
  | nil => exact List.not_mem_nil
  | cons hd _ ih =>
    intro hquote
    rcases List.mem_cons.1 hquote with rfl | hquote
    · exact absurd (List.mem_of_getElem? hd.2) (by decide)
    · exact ih hquote

theorem positional?_eq_some (hne : cs ≠ []) (h : ∀ c ∈ cs, isDigitOf base c = true) :
    positional? base cs = some (positional base cs) :=
  if_pos ⟨hne, List.all_eq_true.2 h⟩

/-! ## Integer tokens -/

theorem bne_quote_of_isDigit {c : Char} (h : isDigit c = true) : (c != '\'') = true := by
  rw [bne_iff_ne]
  rintro rfl
  exact absurd h (by decide)

namespace Token

variable {t : Token}

/-- A token of decimal digits has the number as its value. -/
theorem naturalValue?_of_isDigits (hk : t.kind = .natural) (hl : t.lexeme = String.ofList cs)
    (h : IsDigits cs) : t.naturalValue? = some (positional 10 cs) := by
  have hdrop : cs.dropWhile (· != '\'') = [] :=
    List.dropWhile_eq_nil_iff.2 fun c hc => bne_quote_of_isDigit (h.2 c hc)
  rw [naturalValue?, if_pos hk, hl]
  simp only [String.toList_ofList, hdrop]
  exact positional?_eq_some h.1 fun c hc => isDigitOf_of_isDigit (h.2 c hc)

/-- A token with a base has the number of its digits in the base as its value. -/
theorem naturalValue?_of_isBase {bs : List Char} (hk : t.kind = .natural)
    (hl : t.lexeme = String.ofList (bs ++ '\'' :: cs)) (hb : IsBase bs base) (h : IsDigitsOf base cs) :
    t.naturalValue? = some (positional base cs) := by
  have hbs : ∀ c ∈ bs, (c != '\'') = true := fun c hc => bne_quote_of_isDigit (hb.1.2 c hc)
  have hdrop : (bs ++ '\'' :: cs).dropWhile (· != '\'') = '\'' :: cs := by
    rw [List.dropWhile_append_of_pos hbs]
    rfl
  have htake : (bs ++ '\'' :: cs).takeWhile (· != '\'') = bs := by
    rw [List.takeWhile_append_of_pos hbs]
    exact List.append_nil bs
  rw [naturalValue?, if_pos hk, hl]
  simp only [String.toList_ofList, hdrop, htake, (baseOf?_eq_some hb.1).2 hb, Option.bind_some]
  exact positional?_eq_some h.1 h.2

end Token

/-- A text is divided at its first quote in one way only. -/
theorem eq_of_append_quote {as bs cs' : List Char} (ha : '\'' ∉ as) (hb : '\'' ∉ bs)
    (h : as ++ '\'' :: cs = bs ++ '\'' :: cs') : as = bs ∧ cs = cs' := by
  induction as generalizing bs with
  | nil =>
    cases bs with
    | nil => exact ⟨rfl, List.tail_eq_of_cons_eq h⟩
    | cons b bs => exact absurd (List.head_eq_of_cons_eq h ▸ List.mem_cons_self) hb
  | cons a as ih =>
    cases bs with
    | nil => exact absurd (List.head_eq_of_cons_eq h ▸ List.mem_cons_self) ha
    | cons b bs =>
      obtain ⟨rfl, htail⟩ := List.cons_eq_cons.1 h
      obtain ⟨rfl, hcs⟩ := ih (fun hc => ha (List.mem_cons_of_mem _ hc))
        (fun hc => hb (List.mem_cons_of_mem _ hc)) htail
      exact ⟨rfl, hcs⟩

/-- A piece of text stands for one integer only. -/
theorem NumberLiteral.unique {rest : List Char} {v w : Nat} (hv : NumberLiteral cs rest v)
    (hw : NumberLiteral cs rest w) : v = w := by
  -- a base is not the zero of a character literal, so the text up to its quote tells the form
  have hzero : ∀ {base : Nat}, Denotes 10 ['0'] base → ¬ 2 ≤ base := by
    intro base hb hle
    have h0 : Denotes 10 ['0'] 0 := denotes_positional (List.forall_mem_singleton.2 rfl)
    rw [hb.unique h0] at hle
    exact absurd hle (by decide)
  have hquote : '\'' ∉ ['0'] := by decide
  cases hv with
  | decimal _ hv =>
    cases hw with
    | decimal _ hw => exact hv.unique hw
    | based => exact absurd (List.mem_append_right _ List.mem_cons_self) hv.not_quote
    | literal => exact absurd (by simp) hv.not_quote
  | @based bs ds _ base _ hb hbase _ hv =>
    generalize hcs : bs ++ '\'' :: ds = cs at hw
    cases hw with
    | decimal _ hw =>
      subst hcs
      exact absurd (List.mem_append_right _ List.mem_cons_self) hw.not_quote
    | @based bs' ds' _ base' _ hb' _ _ hw =>
      obtain ⟨rfl, rfl⟩ := eq_of_append_quote hb.not_quote hb'.not_quote hcs
      rw [hb.unique hb'] at hv
      exact hv.unique hw
    | literal =>
      obtain ⟨rfl, -⟩ := eq_of_append_quote hb.not_quote hquote hcs
      exact absurd hbase.1 (hzero hb)
  | @literal ds _ d hd =>
    generalize hcs : '0' :: '\'' :: ds = cs at hw
    cases hw with
    | decimal _ hw =>
      subst hcs
      exact absurd (by simp) hw.not_quote
    | based hb hbase =>
      obtain ⟨rfl, -⟩ := eq_of_append_quote hquote hb.not_quote hcs
      exact absurd hbase.1 (hzero hb)
    | literal hd' =>
      cases hcs
      have h := hd.scan.symm.trans hd'.scan
      cases h
      rfl

/-- The piece of text of an integer token stands for its value. -/
theorem LongestMatch.exists_value {t : Token} {rest : List Char}
    (h : LongestMatch t.kind t.lexeme cs rest) (hk : t.kind = .natural) :
    ∃ v, NumberLiteral cs rest v ∧ t.naturalValue? = some v := by
  generalize hs : t.lexeme = s at h
  rw [hk] at h
  cases h with
  | decimal h =>
    exact ⟨_, .decimal h.1 (denotes_positional fun c hc => isDigitOf_of_isDigit (h.2 c hc)),
      Token.naturalValue?_of_isDigits hk hs h⟩
  | based hb hd =>
    have hbase : Denotes 10 _ _ := denotes_positional fun c hc => isDigitOf_of_isDigit (hb.1.2 c hc)
    rw [hb.2.1] at hbase
    exact ⟨_, .based hbase hb.2.2 hd.1 (denotes_positional hd.2),
      Token.naturalValue?_of_isBase hk hs hb hd⟩
  | literal h => exact ⟨_, .literal h, Token.naturalValue?_toDigits hk hs⟩

/-- An integer token has the value that its piece of text stands for, and no other. -/
theorem LongestMatch.naturalValue?_eq_some_iff {t : Token} {rest : List Char} {v : Nat}
    (h : LongestMatch t.kind t.lexeme cs rest) (hk : t.kind = .natural) :
    t.naturalValue? = some v ↔ NumberLiteral cs rest v := by
  obtain ⟨w, hw, hvalue⟩ := h.exists_value hk
  constructor
  · intro hv
    rw [hvalue] at hv
    cases hv
    exact hw
  · intro hv
    rw [hvalue, hw.unique hv]

end PrologTerms
