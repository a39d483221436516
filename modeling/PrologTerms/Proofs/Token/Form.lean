import PrologTerms.Token.Lexer

/-!
# What tokens look like

Every kind of token has a grammar, said here without the functions that read tokens: a text between
quotes is a sequence of characters and escape sequences, layout is a sequence of characters and comments,
and so on. What may follow a token is said beside its form: nothing with which it would go on.
-/

namespace PrologTerms

/-! ## Between quotes -/

/-- What may stand behind a backslash, and the character that it stands for, if it does for one. The
second text is what follows, which does not go on with it. -/
inductive Escape : List Char → Option Char → List Char → Prop
  /-- A letter for a control character. -/
  | letter {c d : Char} {rest : List Char} (h : escapeLetter? c = some d) : Escape [c] (some d) rest
  /-- Two hexadecimal digits. -/
  | hex {c d : Char} {m n : Nat} {rest : List Char} (hc : hexValue? c = some m)
    (hd : hexValue? d = some n) : Escape ['x', c, d] (some (Char.ofNat (16 * m + n))) rest
  /-- The delete character. -/
  | delete {rest : List Char} : Escape ['^', '?'] (some '\x7f') rest
  /-- A control character by its capital letter. -/
  | capital {c : Char} {rest : List Char} (h : 'A' ≤ c ∧ c ≤ 'Z') :
    Escape ['^', c] (some (Char.ofNat ((c.toNat - 'A'.toNat + 1) % 32))) rest
  /-- A control character by its small letter. -/
  | small {c : Char} {rest : List Char} (h : 'a' ≤ c ∧ c ≤ 'z') :
    Escape ['^', c] (some (Char.ofNat ((c.toNat - 'a'.toNat + 1) % 32))) rest
  /-- Up to three octal digits. -/
  | octal {cs rest : List Char} (hne : cs ≠ []) (hlen : cs.length ≤ 3)
    (hcs : ∀ c ∈ cs, isOctal c = true)
    (hr : cs.length < 3 → ∀ r ∈ rest.head?, isOctal r = false) :
    Escape cs (some (Char.ofNat (octalValue cs))) rest
  /-- A layout character, which is left out. -/
  | layout {c : Char} {rest : List Char} (h : isLayout c = true) : Escape [c] none rest
  /-- Any number of layout characters, which are left out. -/
  | skip {cs rest : List Char} (hcs : ∀ c ∈ cs, isLayout c = true)
    (hr : ∀ r ∈ rest.head?, isLayout r = false) : Escape ('c' :: cs) none rest
  /-- A character that stands for itself. -/
  | self {c : Char} {rest : List Char} (hl : escapeLetter? c = none) (hc : c ∉ ['x', 'c', '^'])
    (ho : isOctal c = false) (hs : isLayout c = false) : Escape [c] (some c) rest

/-- What may stand between two quotes `q`, and the characters that it stands for. -/
inductive QuotedBody (q : Char) : List Char → List Char → Prop
  /-- Nothing. -/
  | nil : QuotedBody q [] []
  /-- A character that stands for itself. -/
  | plain {c : Char} {cs ds : List Char} (hq : c ≠ q) (hb : c ≠ '\\') (h : QuotedBody q cs ds) :
    QuotedBody q (c :: cs) (c :: ds)
  /-- Two quotes for one. -/
  | doubled {cs ds : List Char} (h : QuotedBody q cs ds) : QuotedBody q (q :: q :: cs) (q :: ds)
  /-- An escape sequence. -/
  | escape {es cs ds : List Char} {d : Option Char} (he : Escape es d (cs ++ [q]))
    (h : QuotedBody q cs ds) : QuotedBody q ('\\' :: es ++ cs) (d.toList ++ ds)

/-! ## Numbers -/

/-- A row of decimal digits. -/
def IsDigits (cs : List Char) : Prop := cs ≠ [] ∧ ∀ c ∈ cs, isDigit c = true

/-- A row of digits of the given base. -/
def IsDigitsOf (base : Nat) (cs : List Char) : Prop := cs ≠ [] ∧ ∀ c ∈ cs, isDigitOf base c = true

/-- The decimal digits name the base, which is one from 2 to 36. -/
def IsBase (cs : List Char) (base : Nat) : Prop :=
  IsDigits cs ∧ positional 10 cs = base ∧ 2 ≤ base ∧ base ≤ 36

/-- What may stand behind `0'`, and the character that is meant. The second text is what follows, which
does not go on with it. -/
inductive LiteralItem : List Char → Char → List Char → Prop
  /-- A character that stands for itself, which may be a quote. -/
  | plain {c : Char} {rest : List Char} (h : c ≠ '\\') (hr : c = '\'' → rest.head? ≠ some '\'') :
    LiteralItem [c] c rest
  /-- Two quotes for one. -/
  | doubled {rest : List Char} : LiteralItem ['\'', '\''] '\'' rest
  /-- An escape sequence. -/
  | escape {es rest : List Char} {d : Char} (h : Escape es (some d) rest) :
    LiteralItem ('\\' :: es) d rest

/-- The exponent of a float. -/
def IsExponent (cs : List Char) : Prop :=
  ∃ mark sign digits, cs = mark :: sign ++ digits ∧ mark ∈ ['e', 'E'] ∧ sign ∈ [[], ['+'], ['-']] ∧
    IsDigits digits

/-- A float: digits with a fraction, an exponent, or both behind them. -/
inductive IsFloat : List Char → Prop
  /-- A fraction alone. -/
  | fraction {ds fs : List Char} (hd : IsDigits ds) (hf : IsDigits fs) : IsFloat (ds ++ '.' :: fs)
  /-- An exponent alone. -/
  | exponent {ds es : List Char} (hd : IsDigits ds) (he : IsExponent es) : IsFloat (ds ++ es)
  /-- A fraction and an exponent. -/
  | both {ds fs es : List Char} (hd : IsDigits ds) (hf : IsDigits fs) (he : IsExponent es) :
    IsFloat (ds ++ '.' :: fs ++ es)

/-! ## Layout -/

/-- The text leads from inside of `m` comments, one in the other, to inside of `n` comments, and is
outside of all comments at most where it ends. -/
inductive Nests : Nat → List Char → Nat → Prop
  /-- Nothing. -/
  | nil {n : Nat} : Nests n [] n
  /-- A comment begins. -/
  | opening {m n : Nat} {cs : List Char} (h : Nests (m + 2) cs n) : Nests (m + 1) ('/' :: '*' :: cs) n
  /-- A comment ends. -/
  | closing {m n : Nat} {cs : List Char} (h : Nests m cs n) : Nests (m + 1) ('*' :: '/' :: cs) n
  /-- A character with which no comment begins or ends. -/
  | char {m n : Nat} {c : Char} {cs : List Char} (ho : c = '/' → cs.head? ≠ some '*')
    (hc : c = '*' → cs.head? ≠ some '/') (h : Nests (m + 1) cs n) : Nests (m + 1) (c :: cs) n

/-- A piece of layout that is complete. -/
inductive LayoutItem : List Char → Prop
  /-- A layout character. -/
  | char {c : Char} (h : isLayout c = true) : LayoutItem [c]
  /-- A comment to the end of the line. -/
  | line {cs : List Char} (h : '\n' ∉ cs) : LayoutItem ('%' :: cs ++ ['\n'])
  /-- A comment in brackets. -/
  | block {cs : List Char} (h : Nests 1 cs 0) : LayoutItem ('/' :: '*' :: cs)

/-- A comment that the end of the text cuts off. -/
inductive CutComment : List Char → Prop
  /-- A comment in the last line. -/
  | line {cs : List Char} (h : '\n' ∉ cs) : CutComment ('%' :: cs)
  /-- A comment in brackets. -/
  | block {cs : List Char} {n : Nat} (h : Nests 1 cs (n + 1)) : CutComment ('/' :: '*' :: cs)

/-- Layout in front of `rest`. -/
def IsLayoutText (cs rest : List Char) : Prop :=
  ∃ items last, cs = List.flatten items ++ last ∧ (∀ item ∈ items, LayoutItem item) ∧
    (last = [] ∨ CutComment last ∧ rest = [])

/-! ## Tokens -/

/-- The first text is a token of the kind, with the lexeme, and is not shorter than it could be with the
second text behind it. -/
inductive LongestMatch : TokenKind → String → List Char → List Char → Prop
  /-- A word. -/
  | word {c : Char} {cs rest : List Char} (hc : isSmall c = true) (hcs : ∀ d ∈ cs, isAlpha d = true)
    (hr : ∀ r ∈ rest.head?, isAlpha r = false) :
    LongestMatch .name (String.ofList (c :: cs)) (c :: cs) rest
  /-- A symbol name. -/
  | symbol {cs rest : List Char} (hne : cs ≠ []) (hcs : ∀ d ∈ cs, isSymbol d = true)
    (hcomment : ¬ ['/', '*'] <:+: cs) (hdot : cs ≠ ['.'])
    (hr : ∀ r ∈ rest.head?, isSymbol r = true → ['/', '*'] <+: rest) :
    LongestMatch .name (String.ofList cs) cs rest
  /-- A name of one character. -/
  | solo {c : Char} {rest : List Char} (hc : isSolo c = true) :
    LongestMatch .name (String.ofList [c]) [c] rest
  /-- A quoted name. -/
  | quoted {cs ds rest : List Char} (h : QuotedBody '\'' cs ds) (hr : rest.head? ≠ some '\'') :
    LongestMatch .name (String.ofList ds) ('\'' :: cs ++ ['\'']) rest
  /-- A variable. -/
  | var {c : Char} {cs rest : List Char} (hc : isCapital c = true ∨ c = '_')
    (hcs : ∀ d ∈ cs, isAlpha d = true) (hr : ∀ r ∈ rest.head?, isAlpha r = false) :
    LongestMatch .var (String.ofList (c :: cs)) (c :: cs) rest
  /-- An integer in decimal. A quote behind it would make it a base, or `0` a literal. -/
  | decimal {cs rest : List Char} (h : IsDigits cs) (hr : ∀ r ∈ rest.head?, isDigit r = false)
    (hquote : rest.head? = some '\'' → cs ≠ ['0'] ∧ ∀ base, ¬ IsBase cs base) :
    LongestMatch .natural (String.ofList cs) cs rest
  /-- An integer in another base. -/
  | based {bs ds rest : List Char} {base : Nat} (hb : IsBase bs base) (hd : IsDigitsOf base ds)
    (hr : ∀ r ∈ rest.head?, isDigitOf base r = false) :
    LongestMatch .natural (String.ofList (bs ++ '\'' :: ds)) (bs ++ '\'' :: ds) rest
  /-- A character literal. -/
  | literal {cs rest : List Char} {d : Char} (h : LiteralItem cs d rest) :
    LongestMatch .natural (toString d.toNat) ('0' :: '\'' :: cs) rest
  /-- A float. -/
  | float {cs rest : List Char} (h : IsFloat cs) (hr : ∀ r ∈ rest.head?, isDigit r = false) :
    LongestMatch .float (String.ofList cs) cs rest
  /-- A string. -/
  | string {cs ds rest : List Char} (h : QuotedBody '"' cs ds) (hr : rest.head? ≠ some '"') :
    LongestMatch .string (String.ofList ds) ('"' :: cs ++ ['"']) rest
  /-- A bracket, a comma or a bar. -/
  | punct {c : Char} {rest : List Char} (hc : c ∈ ['(', ')', ',', '[', ']', '{', '|', '}']) :
    LongestMatch .punct (String.ofList [c]) [c] rest
  /-- Layout. -/
  | layout {cs rest : List Char} (hne : cs ≠ []) (h : IsLayoutText cs rest)
    (hr : ∀ r ∈ rest.head?, isLayout r = false) (hcomment : startsComment rest = false) :
    LongestMatch .layout (String.ofList cs) cs rest
  /-- The full stop. -/
  | stop {rest : List Char} (hr : ∀ r ∈ rest.head?, isSymbol r = true → startsComment rest = true) :
    LongestMatch .stop (String.ofList ['.']) ['.'] rest

end PrologTerms
