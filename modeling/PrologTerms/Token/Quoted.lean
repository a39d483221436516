import PrologTerms.Token.Escape

/-!
# Quoted texts

A quoted name or string runs to the next quote of its own kind; a doubled quote stands for a single
one, and a backslash begins an escape sequence.
-/

namespace PrologTerms

/-- A quoted text, read behind its opening quote up to and with its closing one. The value is what
the text stands for. -/
def scanQuoted (q : Char) (unterminated : LexicalFault) : List Char → Scan (List Char)
  | [] => .fail unterminated [] []
  | c :: cs =>
    if c = q then
      if cs.head? = some q then
        ((scanQuoted q unterminated cs.tail).after [c, q]).map (q :: ·)
      else .ok [] [c] cs
    else if c = '\\' then
      match _h : scanEscape cs with
      | ⟨.error f, s⟩ => ⟨.error f, s.after [c]⟩
      | ⟨.ok d, s⟩ => ((scanQuoted q unterminated s.rest).after (c :: s.taken)).map (d.toList ++ ·)
    else ((scanQuoted q unterminated cs).after [c]).map (c :: ·)
termination_by cs => cs.length
decreasing_by
  · simp only [List.length_tail, List.length_cons]
    omega
  · have h := whole_scanEscape cs
    simp only [_h, Scan.whole_mk, Split.whole] at h
    simp only [← h, List.length_append, List.length_cons]
    omega
  · simp

@[simp] theorem whole_scanQuoted (q : Char) (unterminated : LexicalFault) (cs : List Char) :
    (scanQuoted q unterminated cs).whole = cs := by
  fun_induction scanQuoted q unterminated cs with
  | case1 => rfl
  | case2 cs h ih =>
    cases cs <;> simp_all
  | case3 => rfl
  | case4 cs _ f s h =>
    have e := whole_scanEscape cs
    simp_all
  | case5 cs _ d s h ih =>
    have e := whole_scanEscape cs
    simp_all [Split.whole]
  | case6 c cs _ _ ih => simp [ih]

end PrologTerms
