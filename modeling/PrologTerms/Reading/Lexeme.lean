import PrologTerms.Reading.Error
import PrologTerms.Token.Lexer

/-!
# Lexemes

For reading terms, layout is dropped from the tokens; each token only remembers whether there was
layout before it, which tells the application of a functor from an operator before a bracket, and
whether there is layout behind it, which a full stop requires.
-/

namespace PrologTerms

/-- A token that is no layout, with its surroundings. -/
structure Lexeme where
  /-- The token. -/
  token : Token
  /-- Is there layout right before the token? -/
  layoutBefore : Bool
  /-- Is there layout, or the end of the text, right behind the token? -/
  layoutBehind : Bool
deriving Repr, DecidableEq

namespace Lexeme

/-- Is the lexeme this bracket, comma or bar? -/
def isPunct (l : Lexeme) (s : String) : Bool := l.token.isPunct s

/-- The name of an operator that the lexeme may be if an operand comes before it. -/
def operatorName? (l : Lexeme) : Option String :=
  match l.token.kind with
  | .name => some l.token.lexeme
  | .punct => if l.isPunct "," || l.isPunct "|" then some l.token.lexeme else none
  | _ => none

end Lexeme

/-- What is left to be read: lexemes, and the errors among them. -/
abbrev LexemeStream := List (Except ReadError Lexeme)

namespace LexemeStream

/-- Drops the layout from tokens, given whether layout has come before. Layout before an error is
forgotten. -/
def ofItems : (layoutBefore : Bool) → List (Except LexicalError Token × Cursor) → LexemeStream
  | _, [] => []
  | _, (.error e, _) :: items => .error e.toReadError :: ofItems false items
  | before, (.ok t, k) :: items =>
    if t.kind = .layout then ofItems true items
    else .ok ⟨t, before, startsLayout k.rest⟩ :: ofItems false items

/-- The lexemes of a text. -/
def ofText (text : String) : LexemeStream := ofItems false (Cursor.ofText text).items

end LexemeStream

end PrologTerms
