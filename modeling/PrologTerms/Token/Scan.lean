import PrologTerms.Text.Split
import PrologTerms.Token.Basic

/-!
# Scans

A scan reads the front of a text. It tells what it made of the characters it took, or why it could
make nothing of them, and in both cases where it stopped.
-/

namespace PrologTerms

/-- The outcome of reading the front of a text. -/
structure Scan (α : Type) where
  /-- What was read, or why it could not be. -/
  value : Except LexicalFault α
  /-- The characters read and those left over. -/
  split : Split

namespace Scan

variable {α β : Type}

/-- A scan that succeeded. -/
def ok (a : α) (taken rest : List Char) : Scan α := ⟨.ok a, taken, rest⟩

/-- A scan that met a fault. -/
def fail (f : LexicalFault) (taken rest : List Char) : Scan α := ⟨.error f, taken, rest⟩

/-- The same scan of a text that has `front` before it. -/
def after (front : List Char) (s : Scan α) : Scan α := { s with split := s.split.after front }

/-- The same scan with its value changed. -/
def map (f : α → β) (s : Scan α) : Scan β := ⟨s.value.map f, s.split⟩

/-- The text that was read from. -/
def whole (s : Scan α) : List Char := s.split.whole

@[simp] theorem whole_mk (v : Except LexicalFault α) (s : Split) : (mk v s).whole = s.whole := rfl

@[simp] theorem whole_ok (a : α) (taken rest : List Char) :
    (ok a taken rest).whole = taken ++ rest := rfl

@[simp] theorem whole_fail (f : LexicalFault) (taken rest : List Char) :
    (fail f taken rest : Scan α).whole = taken ++ rest := rfl

@[simp] theorem whole_after (front : List Char) (s : Scan α) :
    (s.after front).whole = front ++ s.whole := Split.whole_after front s.split

@[simp] theorem whole_map (f : α → β) (s : Scan α) : (s.map f).whole = s.whole := rfl

end Scan

/-- A scanned piece of text as a token of its own wording. -/
def Split.token (kind : TokenKind) (s : Split) : Scan (TokenKind × String) :=
  ⟨.ok (kind, String.ofList s.taken), s⟩

@[simp] theorem Split.whole_token (kind : TokenKind) (s : Split) :
    (s.token kind).whole = s.whole := rfl

end PrologTerms
