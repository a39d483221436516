import PrologTerms.Token.Number
import PrologTerms.Token.Quoted

/-!
# Cutting a text into tokens

`scanToken` reads one token; the class of its first character decides what it may be, and it is as
long as possible. A `Cursor` is a place in a text together with what comes behind it; from one
cursor to the next lies exactly one token or one lexical error, so that a text is covered without
gaps, and reading may go on behind an error.
-/

namespace PrologTerms

/-- Divides a text into the symbol name at its front, which stops before a comment, and the rest. -/
def splitSymbol : List Char → Split
  | [] => ⟨[], []⟩
  | c :: cs =>
    if isSymbol c && !startsComment (c :: cs) then (splitSymbol cs).after [c] else ⟨[], c :: cs⟩

/-- Does a point end a clause if this is the text behind it? -/
def endsClause : List Char → Bool
  | [] => true
  | c :: cs => !isSymbol c || startsLayout (c :: cs)

/-- The token at the front of the text that begins with `c` and goes on with `cs`. -/
def scanToken (c : Char) (cs : List Char) : Scan (TokenKind × String) :=
  if startsComment (c :: cs) then (splitLayout .between (c :: cs)).token .layout
  else
    match CharClass.of c with
    | .layout => (splitLayout .between (c :: cs)).token .layout
    | .small => (Split.span isAlpha (c :: cs)).token .name
    | .capital => (Split.span isAlpha (c :: cs)).token .var
    | .digit => scanNumber (c :: cs)
    | .symbol =>
      if c = '.' ∧ endsClause cs then Split.token .stop ⟨[c], cs⟩
      else (splitSymbol (c :: cs)).token .name
    | .solo => Split.token .name ⟨[c], cs⟩
    | .punctuation => Split.token .punct ⟨[c], cs⟩
    | .quote =>
      if c = '\'' then
        ((scanQuoted c .unterminatedName cs).after [c]).map fun s => (.name, String.ofList s)
      else
        ((scanQuoted c .unterminatedString cs).after [c]).map fun s => (.string, String.ofList s)
    | .other =>
      if c = '_' then (Split.span isAlpha (c :: cs)).token .var
      else .fail (.unexpectedChar c) [c] cs

/-! ## Nothing of the text is lost, and something is read -/

@[simp] theorem whole_splitSymbol (cs : List Char) : (splitSymbol cs).whole = cs := by
  fun_induction splitSymbol cs <;> simp_all

@[simp] theorem whole_scanToken (c : Char) (cs : List Char) :
    (scanToken c cs).whole = c :: cs := by
  unfold scanToken
  split
  · simp
  · repeat' split
    all_goals simp

/-- A symbol character that begins no comment begins a symbol name. -/
theorem taken_splitSymbol_ne_nil {c : Char} {cs : List Char} (h : isSymbol c = true)
    (hc : startsComment (c :: cs) = false) : (splitSymbol (c :: cs)).taken ≠ [] := by
  simp [splitSymbol, h, hc, Split.after]

/-- A token, and also a malformed one, has at least one character. -/
theorem taken_scanToken_ne_nil (c : Char) (cs : List Char) :
    (scanToken c cs).split.taken ≠ [] := by
  unfold scanToken
  split
  · exact taken_splitLayout_ne_nil (.inl ‹_›)
  · split
    · exact taken_splitLayout_ne_nil (.inr (by simp_all [isLayout]))
    · simp_all [Split.token, Split.span, isAlpha, isSmall]
    · simp_all [Split.token, Split.span, isAlpha, isCapital]
    · intro h
      have := prefix_taken_scanNumber (c :: cs)
      simp_all [isDigit]
    · split
      · simp [Split.token]
      · exact taken_splitSymbol_ne_nil (by simp_all [isSymbol]) (by simp_all)
    · simp [Split.token]
    · simp [Split.token]
    · split <;> simp [Scan.map, Scan.after, Split.after]
    · split
      · simp_all [Split.token, Split.span, isAlpha]
      · simp [Scan.fail]

/-! ## Cursors -/

/-- A place in a text. -/
structure Cursor where
  /-- The characters behind the place. -/
  rest : List Char
  /-- The number of bytes before the place. -/
  offset : Nat := 0
  /-- The line and column of the place. -/
  pos : Position := {}
deriving Repr, DecidableEq

namespace Cursor

/-- The start of a text. -/
def ofText (text : String) : Cursor := { rest := text.toList }

/-- The place between the two parts of the text behind this place. -/
def move (k : Cursor) (s : Split) : Cursor :=
  ⟨s.rest, k.offset + utf8Length s.taken, k.pos.advanceAll s.taken⟩

/-- The token or error at a place and the place behind it; nothing at the end of the text. -/
def next? (k : Cursor) : Option (Except LexicalError Token × Cursor) :=
  match k.rest with
  | [] => none
  | c :: cs =>
    let scan := scanToken c cs
    let k' := k.move scan.split
    let span : Span := ⟨k.offset, k'.offset⟩
    match scan.value with
    | .ok (kind, lexeme) => some (.ok ⟨kind, lexeme, span, k.pos⟩, k')
    | .error f => some (.error ⟨f, span, k.pos⟩, k')

/-- What comes next ends further on. -/
theorem length_rest_lt_of_next? {k k' : Cursor} {item : Except LexicalError Token}
    (h : k.next? = some (item, k')) : k'.rest.length < k.rest.length := by
  unfold next? at h
  split at h
  · simp at h
  · next c cs hk =>
    have whole : (scanToken c cs).whole = c :: cs := whole_scanToken c cs
    have pos := List.length_pos_iff.2 (taken_scanToken_ne_nil c cs)
    have len := congrArg List.length whole
    simp only [Scan.whole, Split.whole, List.length_append] at len
    dsimp only at h
    split at h
    all_goals
      simp only [Option.some.injEq, Prod.mk.injEq] at h
      rw [← h.2, hk, ← len]
      simp only [move]
      omega

/-- All tokens and errors behind a place in order, each with the place behind it. -/
def items (k : Cursor) : List (Except LexicalError Token × Cursor) :=
  match _h : k.next? with
  | none => []
  | some (item, k') => (item, k') :: k'.items
termination_by k.rest.length
decreasing_by exact length_rest_lt_of_next? _h

end Cursor

/-- Are there more tokens at a place to which the given tokens and errors have led? Behind an error
there are none, whatever is left of the text. -/
def Cursor.hasMore (k : Cursor) (passed : List (Except LexicalError Token × Cursor)) : Bool :=
  passed.all (·.1.isOk) && !k.rest.isEmpty

end PrologTerms
