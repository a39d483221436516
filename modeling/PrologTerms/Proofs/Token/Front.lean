import PrologTerms.Proofs.Token.Exact
import PrologTerms.Proofs.Token.VarName
import PrologTerms.Writing.Piece

/-!
# Tokens at the front of a text

What is written for an atom, a number, a variable or a bracket is read as a token of its own, if the
text behind it begins with a space, a bracket, a comma, a bar or a full stop.
-/

namespace PrologTerms

/-- The characters that may stand behind a token. -/
def delimiters : List Char := [' ', '(', ')', '[', ']', '{', '}', ',', '|', '.']

/-- A text does not go on from one part to the next: the second part begins with a character that
stands behind tokens, and with no point if the first part ends in a symbol or a digit. -/
structure Apart (cs rest : List Char) : Prop where
  /-- What may stand behind the first part. -/
  mem : ∀ r, rest.head? = some r → r ∈ delimiters
  /-- A symbol or a digit would join with a point. -/
  point : ∀ c, cs.getLast? = some c → isSymbol c = true ∨ isDigit c = true → rest.head? ≠ some '.'

theorem apart_nil (cs : List Char) : Apart cs [] := by
  constructor <;> simp

variable {c : Char} {cs rest : List Char} {p : Char → Bool}

theorem Apart.head (h : Apart cs rest) (hp : delimiters.any p = false) :
    ∀ r ∈ rest.head?, p r = false :=
  fun r hr => Bool.eq_false_iff.2 (List.any_eq_false.1 hp r (h.mem r hr))

/-- What stands behind a symbol or a digit is neither. -/
theorem Apart.not_symbol (h : Apart (c :: cs) rest)
    (hcs : ∀ d ∈ c :: cs, isSymbol d = true ∨ isDigit d = true) :
    rest.head? ≠ some '.' ∧ ∀ r ∈ rest.head?, isSymbol r = false := by
  have hne : c :: cs ≠ [] := List.cons_ne_nil c cs
  have hpoint := h.point _ (List.getLast?_eq_some_getLast hne) (hcs _ (List.getLast_mem hne))
  have hnot : ∀ r ∈ delimiters, r = '.' ∨ isSymbol r = false :=
    List.all_iff_forall_prop.1 (by decide)
  refine ⟨hpoint, fun r hr => ?_⟩
  rcases hnot r (h.mem r hr) with rfl | hs
  · exact absurd hr hpoint
  · exact hs

theorem Apart.uncut (h : Apart cs rest) : Uncut cs rest := by
  refine ⟨fun hd more e => ?_, fun _ r hr => ?_⟩
  · obtain ⟨c, cs, rfl⟩ := List.exists_cons_of_ne_nil hd.1
    exact absurd (by rw [e]; rfl) (h.not_symbol fun d hm => .inr (hd.2 d hm)).1
  · have hall : ∀ r ∈ delimiters, r ∉ ['e', 'E'] := List.all_iff_forall_prop.1 (by decide)
    exact hall r (h.mem r hr)

/-! ## Words, variables and numbers -/

theorem scansAs_word (hc : isSmall c = true) (hcs : ∀ d ∈ c :: cs, isAlpha d = true)
    (hr : Apart (c :: cs) rest) : ScansAs (c :: cs) rest .name (String.ofList (c :: cs)) :=
  scansAs_alpha (List.forall_mem_cons.1 hcs).2 (hr.head (by decide)) (.inl ⟨hc, rfl⟩)

theorem scansAs_var {name : String} (h : IsVarName name) (hr : Apart name.toList rest) :
    ScansAs name.toList rest .var name := by
  obtain ⟨c, cs, e, hc, hcs⟩ := h
  have hname : String.ofList (c :: cs) = name := by rw [← e, String.ofList_toList]
  have hscan : ScansAs (c :: cs) rest .var (String.ofList (c :: cs)) :=
    scansAs_alpha hcs (hr.head (by decide)) (.inr ⟨hc, rfl⟩)
  rw [hname] at hscan
  rwa [e]

theorem scansAs_digits (hcs : ∀ d ∈ c :: cs, isDigit d = true) (hr : Apart (c :: cs) rest) :
    ScansAs (c :: cs) rest .natural (String.ofList (c :: cs)) := by
  have hquote : rest.head? ≠ some '\'' := fun e => absurd (hr.mem _ e) (by decide)
  refine LongestMatch.scansAs (.decimal ⟨List.cons_ne_nil c cs, hcs⟩ ?_ ?_) hr.uncut
  · exact hr.head (by decide)
  · exact fun e => absurd e hquote

/-! ## Single characters -/

/-- A layout character with no more layout behind it is a token of its own. -/
theorem scansAs_layout (hc : isLayout c = true) (hr : rest = [] ∨ startsLayout rest = false) :
    ScansAs [c] rest .layout (String.ofList [c]) := by
  have hitem : IsLayoutText ([c] ++ []) rest := (isLayoutText_nil rest).cons (.char hc)
  exact hitem.scansAs (List.cons_ne_nil c []) hr

end PrologTerms
