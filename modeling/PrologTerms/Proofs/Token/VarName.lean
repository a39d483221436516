import PrologTerms.Proofs.Token.Contents
import PrologTerms.Reading.Lexeme

/-!
# The names of variables

A token that is a variable is a word that begins with a capital letter or an underline.
-/

namespace PrologTerms

/-- The name is that of a variable: a word that begins with a capital letter or an underline. -/
def IsVarName (name : String) : Prop :=
  ∃ c cs, name.toList = c :: cs ∧ (isCapital c = true ∨ c = '_') ∧ ∀ d ∈ cs, isAlpha d = true

/-- The lexeme of the token is the name of a variable, if the token is a variable. -/
def Token.VarNamed (t : Token) : Prop := t.kind = .var → IsVarName t.lexeme

/-- What is read as a variable has the name of a variable. -/
theorem LongestMatch.isVarName {s : String} {cs rest : List Char} (h : LongestMatch .var s cs rest) :
    IsVarName s := by
  cases h with
  | var hc hcs => exact ⟨_, _, String.toList_ofList, hc, hcs⟩

theorem varNamed_of_next? {k k' : Cursor} {t : Token} (h : k.next? = some (.ok t, k')) :
    t.VarNamed := by
  intro hkind
  obtain ⟨cs, -, hscan⟩ := Cursor.scansAs_of_next? h
  rw [hkind] at hscan
  exact hscan.longestMatch.isVarName

/-- All variables in a text have names of variables. -/
theorem varNamed_of_mem_items {k k' : Cursor} {t : Token} (h : (.ok t, k') ∈ k.items) :
    t.VarNamed := by
  fun_induction Cursor.items k with
  | case1 => cases h
  | case2 k item k'' e ih =>
    rcases List.mem_cons.1 h with h | h
    · cases h
      exact varNamed_of_next? e
    · exact ih h

namespace LexemeStream

/-- All variables in the stream have names of variables. -/
def VarNamed (stream : LexemeStream) : Prop := ∀ l, .ok l ∈ stream → l.token.VarNamed

theorem VarNamed.tail {x : Except ReadError Lexeme} {stream : LexemeStream}
    (h : VarNamed (x :: stream)) : VarNamed stream :=
  fun l hl => h l (List.mem_cons_of_mem x hl)

theorem varNamed_ofItems {items : List (Except LexicalError Token × Cursor)}
    (h : ∀ t k, (.ok t, k) ∈ items → t.VarNamed) (before : Bool) : VarNamed (ofItems before items) := by
  intro l hl
  fun_induction ofItems before items with
  | case1 => cases hl
  | case2 before e k items ih =>
    rcases List.mem_cons.1 hl with hl | hl
    · cases hl
    · exact ih (fun t k ht => h t k (List.mem_cons_of_mem _ ht)) hl
  | case3 before t k items _ ih =>
    exact ih (fun t k ht => h t k (List.mem_cons_of_mem _ ht)) hl
  | case4 before t k items _ ih =>
    rcases List.mem_cons.1 hl with hl | hl
    · cases hl
      exact h t k List.mem_cons_self
    · exact ih (fun t k ht => h t k (List.mem_cons_of_mem _ ht)) hl

theorem varNamed_ofText (text : String) : VarNamed (ofText text) :=
  varNamed_ofItems (fun _ _ => varNamed_of_mem_items) false

end LexemeStream

end PrologTerms
