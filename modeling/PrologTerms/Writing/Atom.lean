import PrologTerms.Text.CharClass
import PrologTerms.Text.CharDisplay

/-!
# Writing atoms

An atom is written as it is where that reads back as the atom, and in single quotes elsewhere, with
escapes for the characters that cannot stand between quotes.
-/

namespace PrologTerms

/-- Is there the beginning of a block comment in the text? -/
def hasComment : List Char → Bool
  | [] => false
  | '/' :: '*' :: _ => true
  | _ :: cs => hasComment cs

/-- Are quotes needed for the name to be read back as an atom? Without quotes stand words, symbol
names other than `.` without a comment in them, and the names `[]`, `{}`, `!` and `;`. -/
def needsQuotes (name : String) : Bool :=
  match name.toList with
  | [] => true
  | c :: cs =>
    if isSmall c then !(c :: cs).all isAlpha
    else if name ∈ ["[]", "{}", "!", ";"] then false
    else !(c :: cs).all isSymbol || name = "." || hasComment (c :: cs)

/-- A character between single quotes. -/
def quotedNameChar (c : Char) : List Char :=
  if c = '\'' then ['\\', '\'']
  else if c = '\\' then ['\\', '\\']
  else if c = '\n' then ['\\', 'n']
  else if c = '\t' then ['\\', 't']
  else if c.toNat ≤ 0x1F ∨ (0x7F ≤ c.toNat ∧ c.toNat ≤ 0x9F) then
    '\\' :: 'x' :: (hexByte c.toNat).toList
  else [c]

/-- A name in single quotes. -/
def quotedName (name : String) : List Char :=
  '\'' :: name.toList.flatMap quotedNameChar ++ ['\'']

/-- A name as it is written for an atom or for the name of a compound term. -/
def atomText (name : String) : List Char :=
  if needsQuotes name then quotedName name else name.toList

end PrologTerms
