/-!
# Dividing a text

Reading a token divides a text into the characters that the token takes and the characters that it
leaves.
-/

namespace PrologTerms

/-- A text divided in two. -/
structure Split where
  /-- The characters at the front. -/
  taken : List Char
  /-- The characters behind them. -/
  rest : List Char
deriving Repr, DecidableEq

namespace Split

/-- The same division of a text that has `front` before it. -/
def after (front : List Char) (s : Split) : Split := ⟨front ++ s.taken, s.rest⟩

/-- The longest front of characters with a property, and the rest. -/
def span (p : Char → Bool) (cs : List Char) : Split := ⟨cs.takeWhile p, cs.dropWhile p⟩

/-- The text that was divided. -/
def whole (s : Split) : List Char := s.taken ++ s.rest

@[simp] theorem whole_mk (as bs : List Char) : (mk as bs).whole = as ++ bs := rfl

@[simp] theorem whole_after (front : List Char) (s : Split) :
    (s.after front).whole = front ++ s.whole := by
  simp [after, whole]

@[simp] theorem whole_span (p : Char → Bool) (cs : List Char) : (span p cs).whole = cs :=
  List.takeWhile_append_dropWhile

end Split

end PrologTerms
