import PrologTerms.Text.CharDisplay
import PrologTerms.Text.Position

/-!
# Tokens and lexical errors

A text is cut into tokens; layout is a token too, so that nothing of the text is lost. What cannot
be a token is reported as a `LexicalError`, which tells the cause and where the malformed token
starts.
-/

namespace PrologTerms

/-- The category of a token. -/
inductive TokenKind
  /-- A word, a symbol name, a solo character or a quoted name. -/
  | name
  /-- A word that begins with a capital letter or an underline. -/
  | var
  /-- An integer in decimal, in another base, or given as a character. -/
  | natural
  /-- A decimal number with a fraction or an exponent. -/
  | float
  /-- A text in double quotes. -/
  | string
  /-- A bracket, a comma or a bar. -/
  | punct
  /-- White space and comments. -/
  | layout
  /-- The full stop that ends a clause. -/
  | stop
deriving Repr, DecidableEq

/-- The category as token listings show it. -/
def TokenKind.label : TokenKind → String
  | .name => "NAME"
  | .var => "VARIABLE"
  | .natural => "NATURAL_NUMBER"
  | .float => "UNSIGNED_FLOAT"
  | .string => "STRING"
  | .punct => "PUNCTUATION_CHAR"
  | .layout => "LAYOUT_TEXT"
  | .stop => "FULL_STOP"

/-- A piece of text with its category. -/
structure Token where
  /-- The category. -/
  kind : TokenKind
  /-- What the token says: its own text, except that quoted names and strings are given without
  quotes and escapes, and a character literal is given as a decimal code. -/
  lexeme : String
  /-- The bytes of the text that the token covers. -/
  span : Span
  /-- Where the token starts. -/
  pos : Position
deriving Repr, DecidableEq

namespace Token

/-- Is the token this bracket, comma or bar? -/
def isPunct (t : Token) (s : String) : Bool := t.kind == .punct && t.lexeme == s

/-- The token as a line of a token listing. -/
def listing (t : Token) : String :=
  "token<" ++ t.kind.label ++ ">[" ++ String.join (t.lexeme.toList.map listedChar) ++ "]"

end Token

/-- The ways in which a token can be malformed. -/
inductive LexicalFault
  /-- The text ends inside a quoted name. -/
  | unterminatedName
  /-- The text ends inside an escape sequence. -/
  | unterminatedEscape
  /-- A character of a `\x` escape that is no hexadecimal digit. -/
  | badHexDigit (c : Char)
  /-- A character of a `\^` escape that names no control character. -/
  | badControl (c : Char)
  /-- A character literal without a character. -/
  | missingChar
  /-- A base without digits behind it. -/
  | missingBaseDigits
  /-- A decimal point without digits behind it. -/
  | missingFraction
  /-- An exponent mark without digits behind it. -/
  | missingExponent
  /-- The text ends inside a string. -/
  | unterminatedString
  /-- A character that no token begins with. -/
  | unexpectedChar (c : Char)
deriving Repr, DecidableEq

namespace LexicalFault

/-- The wording of a fault. -/
def message : LexicalFault → String
  | .unterminatedName => "unterminated quoted name"
  | .unterminatedEscape => "unterminated escape sequence"
  | .badHexDigit c => "unexpected hex character (" ++ quotedChar c ++ ")"
  | .badControl c => "unexpected control character (" ++ quotedChar c ++ ")"
  | .missingChar => "no character code provided for 0'"
  | .missingBaseDigits => "missing number after base"
  | .missingFraction => "missing decimal digits after '.'"
  | .missingExponent => "missing digits in exponent"
  | .unterminatedString => "unterminated string"
  | .unexpectedChar c => "unexpected character (" ++ quotedChar c ++ ")"

/-- The character that a fault is about, if it is about one. -/
def char? : LexicalFault → Option Char
  | .badHexDigit c => some c
  | .badControl c => some c
  | .unexpectedChar c => some c
  | _ => none

end LexicalFault

/-- A malformed token. -/
structure LexicalError where
  /-- What is wrong. -/
  fault : LexicalFault
  /-- The bytes from the start of the token to where the fault showed. -/
  span : Span
  /-- Where the malformed token starts. -/
  pos : Position
deriving Repr, DecidableEq

/-- The wording of the fault, and the place. -/
def LexicalError.message (e : LexicalError) : String :=
  e.fault.message ++ " at " ++ e.pos.describe

end PrologTerms
