import PrologTerms.Token.Basic

/-!
# Errors of reading

A text that is no sequence of clauses is refused with the cause and the bytes at fault.
-/

namespace PrologTerms

/-- What the reader was waiting for when it met something else. -/
inductive Expectation
  /-- The beginning of a term. -/
  | term
  /-- An operator, or the end of the clause. -/
  | operator
  /-- This bracket. -/
  | bracket (close : String)
  /-- The next argument, or the end of the arguments. -/
  | argument
  /-- The next element of a list, its tail, or its end. -/
  | item
deriving Repr, DecidableEq

/-- The wording of an expectation. -/
def Expectation.message : Expectation → String
  | .term => "expected a term"
  | .operator => "operator expected"
  | .bracket close => "expected '" ++ close ++ "'"
  | .argument => "expected ',' or ')'"
  | .item => "expected ',', '|' or ']'"

/-- The ways in which a text can fail to be read. -/
inductive ReadFault
  /-- A token is malformed. -/
  | lexical (f : LexicalFault)
  /-- The text ends where a term should begin. -/
  | unexpectedEnd
  /-- Something else was expected than the token found, or than the end of the text. -/
  | expected (what : Expectation) (found : Option String)
  /-- A full stop with something other than layout behind it. -/
  | stopWithoutLayout
  /-- An integer that does not fit into 64 bits. -/
  | bigInteger
  /-- A number with a fraction or an exponent. -/
  | float
  /-- An integer without a value. -/
  | malformedNumber
  /-- A fault found by someone else. -/
  | other (message : String)
deriving Repr, DecidableEq

namespace ReadFault

/-- The wording of a fault. -/
def message : ReadFault → String
  | .lexical f => f.message
  | .unexpectedEnd => "unexpected end of input"
  | .expected what (some found) => what.message ++ ", found '" ++ found ++ "'"
  | .expected what none => what.message ++ ", found end of input"
  | .stopWithoutLayout => "expected layout after full stop"
  | .bigInteger => "big integers are not supported"
  | .float => "floating point numbers are not supported"
  | .malformedNumber => "malformed number"
  | .other message => message

end ReadFault

/-- A fault with the bytes of the text that it concerns. -/
structure ReadError where
  /-- What is wrong. -/
  fault : ReadFault
  /-- The bytes at fault; empty at the end of the text. -/
  span : Span
deriving Repr, DecidableEq

/-- The wording of the fault. -/
def ReadError.message (e : ReadError) : String := e.fault.message

/-- A malformed token as an error of reading. -/
def LexicalError.toReadError (e : LexicalError) : ReadError := ⟨.lexical e.fault, e.span⟩

end PrologTerms
