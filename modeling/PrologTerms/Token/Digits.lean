import PrologTerms.Token.Basic

/-!
# Digits and their values

Integers are written in bases from 2 to 36, with letters of either case as digits above nine. An
integer token is a row of decimal digits, or a base and a quote before digits of that base.
-/

namespace PrologTerms

/-- The value of a digit or of a letter used as a digit, where letters count on from ten. -/
def digitValue? (c : Char) : Option Nat :=
  if '0' ≤ c ∧ c ≤ '9' then some (c.toNat - '0'.toNat)
  else if 'a' ≤ c ∧ c ≤ 'z' then some (c.toNat - 'a'.toNat + 10)
  else if 'A' ≤ c ∧ c ≤ 'Z' then some (c.toNat - 'A'.toNat + 10)
  else none

/-- Is `c` a digit of the given base? -/
def isDigitOf (base : Nat) (c : Char) : Bool := (digitValue? c).any (· < base)

/-- The number that a row of digits stands for, the most significant digit first. -/
def positional (base : Nat) (cs : List Char) : Nat :=
  cs.foldl (fun v c => base * v + (digitValue? c).getD 0) 0

/-- The number that a row of digits stands for, if it is not empty and has only digits of the
base. -/
def positional? (base : Nat) (cs : List Char) : Option Nat :=
  if cs ≠ [] ∧ cs.all (isDigitOf base) then some (positional base cs) else none

/-- The base that a row of decimal digits names: one from 2 to 36. -/
def baseOf? (cs : List Char) : Option Nat :=
  (positional? 10 cs).filter fun b => 2 ≤ b && b ≤ 36

/-- The value of an integer token. -/
def Token.naturalValue? (t : Token) : Option Nat :=
  if t.kind = .natural then
    let cs := t.lexeme.toList
    match cs.dropWhile (· != '\'') with
    | [] => positional? 10 cs
    | _ :: digits => (baseOf? (cs.takeWhile (· != '\''))).bind (positional? · digits)
  else none

end PrologTerms
