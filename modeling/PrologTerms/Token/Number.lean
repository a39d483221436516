import PrologTerms.Token.Digits
import PrologTerms.Token.Escape
import PrologTerms.Token.Layout

/-!
# Numbers

A number begins with decimal digits. Behind them a quote makes them a base (`16'ff`) or, after a
single zero, announces a character (`0'a`); a point with a digit, or an exponent mark, makes a
float. A point that ends a clause is left to the full stop.
-/

namespace PrologTerms

/-- The character of a literal, read behind `0'`: an escape, a quote that may be doubled, or any
other character. -/
def scanLiteral : List Char → Scan Char
  | [] => .fail .missingChar [] []
  | '\\' :: cs =>
    match scanEscape cs with
    | ⟨.error f, s⟩ => ⟨.error f, s.after ['\\']⟩
    | ⟨.ok none, s⟩ => ⟨.error .missingChar, s.after ['\\']⟩
    | ⟨.ok (some c), s⟩ => ⟨.ok c, s.after ['\\']⟩
  | '\'' :: '\'' :: cs => .ok '\'' ['\'', '\''] cs
  | c :: cs => .ok c [c] cs

/-- Divides a text into the sign at its front, if there is one, and the rest. -/
def splitSign : List Char → Split
  | '+' :: cs => ⟨['+'], cs⟩
  | '-' :: cs => ⟨['-'], cs⟩
  | cs => ⟨[], cs⟩

/-- A float, read behind its exponent mark: an optional sign and at least one digit. What is read
before is given as `front`. -/
def scanExponent (front cs : List Char) : Scan (TokenKind × String) :=
  let sign := splitSign cs
  let digits := Split.span isDigit sign.rest
  let whole := digits.after (front ++ sign.taken)
  if digits.taken = [] then ⟨.error .missingExponent, whole⟩ else whole.token .float

/-- A float, read behind its decimal point from a text that begins with a digit. What is read
before is given as `front`. -/
def scanFraction (front cs : List Char) : Scan (TokenKind × String) :=
  let digits := Split.span isDigit cs
  match digits.rest with
  | 'e' :: r => scanExponent (front ++ digits.taken ++ ['e']) r
  | 'E' :: r => scanExponent (front ++ digits.taken ++ ['E']) r
  | _ => (digits.after front).token .float

/-- An integer, read behind the quote that follows its base. What is read before is given as
`front`. -/
def scanBased (base : Nat) (front cs : List Char) : Scan (TokenKind × String) :=
  let digits := Split.span (isDigitOf base) cs
  if digits.taken = [] then .fail .missingBaseDigits front cs
  else (digits.after front).token .natural

/-- A number, read from its first digit on. -/
def scanNumber (cs : List Char) : Scan (TokenKind × String) :=
  let digits := Split.span isDigit cs
  match digits.rest with
  | '\'' :: r =>
    if digits.taken = ['0'] then
      ((scanLiteral r).after ['0', '\'']).map fun c => (.natural, toString c.toNat)
    else
      match baseOf? digits.taken with
      | some base => scanBased base (digits.taken ++ ['\'']) r
      | none => digits.token .natural
  | '.' :: c :: r =>
    if isDigit c then scanFraction (digits.taken ++ ['.']) (c :: r)
    else if startsLayout (c :: r) then digits.token .natural
    else .fail .missingFraction (digits.taken ++ ['.']) (c :: r)
  | ['.'] => .fail .missingFraction (digits.taken ++ ['.']) []
  | 'e' :: r => scanExponent (digits.taken ++ ['e']) r
  | 'E' :: r => scanExponent (digits.taken ++ ['E']) r
  | _ => digits.token .natural

/-! ## Nothing of the text is lost -/

@[simp] theorem whole_scanLiteral (cs : List Char) : (scanLiteral cs).whole = cs := by
  unfold scanLiteral
  split
  · rfl
  · next cs =>
    have h := whole_scanEscape cs
    split <;> simp_all
  · rfl
  · rfl

@[simp] theorem whole_splitSign (cs : List Char) : (splitSign cs).whole = cs := by
  unfold splitSign
  split <;> rfl

@[simp] theorem whole_scanExponent (front cs : List Char) :
    (scanExponent front cs).whole = front ++ cs := by
  have h := whole_splitSign cs
  simp only [Split.whole] at h
  unfold scanExponent
  dsimp only
  split <;> simp [h]

@[simp] theorem whole_scanFraction (front cs : List Char) :
    (scanFraction front cs).whole = front ++ cs := by
  have h := Split.whole_span isDigit cs
  simp only [Split.whole] at h
  unfold scanFraction
  dsimp only
  split <;> simp_all

@[simp] theorem whole_scanBased (base : Nat) (front cs : List Char) :
    (scanBased base front cs).whole = front ++ cs := by
  unfold scanBased
  dsimp only
  split <;> simp

@[simp] theorem whole_scanNumber (cs : List Char) : (scanNumber cs).whole = cs := by
  have h := Split.whole_span isDigit cs
  simp only [Split.whole] at h
  unfold scanNumber
  dsimp only
  split
  · split
    · simp_all
    · split <;> simp_all
  · split
    · simp_all
    · split <;> simp_all
  all_goals simp_all

/-! ## A number takes all digits at its front -/

theorem prefix_taken_scanExponent (front cs : List Char) :
    front <+: (scanExponent front cs).split.taken := by
  unfold scanExponent
  dsimp only
  split <;> simp [Split.token, Split.after]

theorem prefix_taken_scanFraction (front cs : List Char) :
    front <+: (scanFraction front cs).split.taken := by
  unfold scanFraction
  dsimp only
  split
  · refine .trans ?_ (prefix_taken_scanExponent _ _)
    simp
  · refine .trans ?_ (prefix_taken_scanExponent _ _)
    simp
  · simp [Split.token, Split.after]

theorem prefix_taken_scanBased (base : Nat) (front cs : List Char) :
    front <+: (scanBased base front cs).split.taken := by
  unfold scanBased
  dsimp only
  split <;> simp [Scan.fail, Split.token, Split.after]

/-- The decimal digits at the front of a text belong to the number there. -/
theorem prefix_taken_scanNumber (cs : List Char) :
    cs.takeWhile isDigit <+: (scanNumber cs).split.taken := by
  unfold scanNumber Split.span
  dsimp only
  split
  · split
    · simp_all [Scan.map, Scan.after, Split.after]
    · split
      · exact (List.prefix_append ..).trans (prefix_taken_scanBased ..)
      · exact List.prefix_rfl
  · split
    · exact (List.prefix_append ..).trans (prefix_taken_scanFraction ..)
    · split
      · exact List.prefix_rfl
      · exact List.prefix_append ..
  · exact List.prefix_append ..
  · exact (List.prefix_append ..).trans (prefix_taken_scanExponent ..)
  · exact (List.prefix_append ..).trans (prefix_taken_scanExponent ..)
  · exact List.prefix_rfl

end PrologTerms
