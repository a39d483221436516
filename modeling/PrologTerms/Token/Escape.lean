import PrologTerms.Text.CharClass
import PrologTerms.Token.Scan

/-!
# Escape sequences

Inside quotes a backslash begins an escape sequence, which stands for one character or, where it
only breaks a line, for none.
-/

namespace PrologTerms

/-- The character that a single letter stands for behind a backslash. -/
def escapeLetter? (c : Char) : Option Char :=
  match c with
  | 'b' => some '\x08'
  | 't' => some '\t'
  | 'n' => some '\n'
  | 'v' => some '\x0b'
  | 'f' => some '\x0c'
  | 'r' => some '\r'
  | 'e' => some '\x1b'
  | 'd' => some '\x7f'
  | 'a' => some '\x07'
  | _ => none

/-- The value of a hexadecimal digit. -/
def hexValue? (c : Char) : Option Nat :=
  if '0' ≤ c ∧ c ≤ '9' then some (c.toNat - '0'.toNat)
  else if 'a' ≤ c ∧ c ≤ 'f' then some (c.toNat - 'a'.toNat + 10)
  else if 'A' ≤ c ∧ c ≤ 'F' then some (c.toNat - 'A'.toNat + 10)
  else none

/-- Is `c` an octal digit? -/
def isOctal (c : Char) : Bool := '0' ≤ c && c ≤ '7'

/-- The number that octal digits stand for. -/
def octalValue (cs : List Char) : Nat := cs.foldl (fun v c => 8 * v + (c.toNat - '0'.toNat)) 0

/-- The two hexadecimal digits of a `\x` escape. -/
def scanHexPair : List Char → Scan Char
  | [] => .fail .unterminatedEscape [] []
  | h :: cs =>
    match hexValue? h, cs with
    | none, _ => .fail (.badHexDigit h) [h] cs
    | some _, [] => .fail .unterminatedEscape [h] []
    | some high, l :: cs =>
      match hexValue? l with
      | none => .fail (.badHexDigit l) [h, l] cs
      | some low => .ok (Char.ofNat (16 * high + low)) [h, l] cs

/-- The character of a `\^` escape: a control character by its letter, or delete by `?`. -/
def scanControl : List Char → Scan Char
  | [] => .fail .unterminatedEscape [] []
  | c :: cs =>
    if c = '?' then .ok '\x7f' [c] cs
    else if 'A' ≤ c ∧ c ≤ 'Z' then .ok (Char.ofNat ((c.toNat - 'A'.toNat + 1) % 32)) [c] cs
    else if 'a' ≤ c ∧ c ≤ 'z' then .ok (Char.ofNat ((c.toNat - 'a'.toNat + 1) % 32)) [c] cs
    else .fail (.badControl c) [c] cs

/-- A character given by up to three octal digits, of which the first is `c`. -/
def scanOctal (c : Char) (cs : List Char) : Scan Char :=
  let more := (cs.take 2).takeWhile isOctal
  .ok (Char.ofNat (octalValue (c :: more))) (c :: more) (cs.drop more.length)

/-- An escape sequence, read behind its backslash. It stands for no character if it is a layout
character, or a `c` with the layout characters behind it. -/
def scanEscape : List Char → Scan (Option Char)
  | [] => .fail .unterminatedEscape [] []
  | c :: cs =>
    match escapeLetter? c with
    | some d => .ok (some d) [c] cs
    | none =>
      if c = 'x' then ((scanHexPair cs).after [c]).map some
      else if c = 'c' then ⟨.ok none, (Split.span isLayout cs).after [c]⟩
      else if c = '^' then ((scanControl cs).after [c]).map some
      else if isOctal c then (scanOctal c cs).map some
      else if isLayout c then .ok none [c] cs
      else .ok (some c) [c] cs

/-! ## Nothing of the text is lost -/

@[simp] theorem whole_scanHexPair (cs : List Char) : (scanHexPair cs).whole = cs := by
  unfold scanHexPair
  repeat' split
  all_goals rfl

@[simp] theorem whole_scanControl (cs : List Char) : (scanControl cs).whole = cs := by
  unfold scanControl
  repeat' split
  all_goals rfl

@[simp] theorem whole_scanOctal (c : Char) (cs : List Char) :
    (scanOctal c cs).whole = c :: cs := by
  have h : (cs.take 2).takeWhile isOctal <+: cs :=
    (List.takeWhile_prefix _).trans (List.take_prefix 2 cs)
  simp [scanOctal, List.prefix_iff_eq_append.1 h]

@[simp] theorem whole_scanEscape (cs : List Char) : (scanEscape cs).whole = cs := by
  unfold scanEscape
  repeat' split
  all_goals simp

end PrologTerms
