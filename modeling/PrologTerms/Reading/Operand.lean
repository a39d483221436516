import PrologTerms.Reading.Frame

/-!
# The beginning of an operand

An operand begins with one or two lexemes, which either are all of it or open something that goes on
with another operand: a bracket, the arguments of a functor, or a prefix operator. A name is the
functor of a compound term if a bracket follows it at once; otherwise it is a prefix operator unless
what follows cannot begin an operand, or the priority does not fit; otherwise it is an atom.
-/

namespace PrologTerms

/-- What decides how lexemes are put together. -/
structure Grammar where
  /-- The operators. -/
  ops : OpTable
  /-- The number of bytes of the text, which is where errors at its end are. -/
  textEnd : Nat
deriving Repr

/-- What the beginning of an operand turns out to be, and what is left to be read. -/
inductive Operand
  /-- An operand. -/
  | complete (e : Expr) (rest : LexemeStream)
  /-- Something that goes on with an operand of at most the given priority. -/
  | opened (f : Frame) (max : Nat) (rest : LexemeStream)
  /-- No operand. -/
  | failed (e : ReadError) (rest : LexemeStream)
deriving Repr

/-- Does an integer fit into 64 bits, one of them for the sign? -/
def fitsWord (n : Int) : Bool := -0x8000000000000000 ≤ n && n < 0x8000000000000000

/-- The integer of a token, with a minus sign before it or not. -/
def Token.integer (t : Token) (negative : Bool) : Except ReadFault Int :=
  match t.naturalValue? with
  | none => .error .malformedNumber
  | some v =>
    let n : Int := if negative then -(v : Int) else v
    if fitsWord n then .ok n else .error .bigInteger

/-- The operand that is the integer of a token. -/
def Operand.ofInteger (t : Token) (negative : Bool) (rest : LexemeStream) : Operand :=
  match t.integer negative with
  | .ok n => .complete (.int n) rest
  | .error f => .failed ⟨f, t.span⟩ rest

/-- What an opening bracket makes: an atom if the closing one follows, else something open. -/
def Operand.ofBracket (close : String) (empty : Expr) (f : Frame) (max : Nat) :
    LexemeStream → Operand
  | [] => .opened f max []
  | .error e :: rest => .failed e rest
  | .ok l :: rest =>
    if l.isPunct close then .complete empty rest else .opened f max (.ok l :: rest)

namespace Grammar

/-- The error of meeting this lexeme, or the end of the text, in place of something else. -/
def unexpected (g : Grammar) (what : Expectation) : Option Lexeme → ReadError
  | some l => ⟨.expected what (some l.token.lexeme), l.token.span⟩
  | none => ⟨.expected what none, .point g.textEnd⟩

/-- Is this a lexeme that no operand begins with? -/
def endsOperand (g : Grammar) (l : Lexeme) : Bool :=
  match l.token.kind with
  | .stop => true
  | .punct => l.token.lexeme ∈ [")", ",", "|", "]", "\x7d"]
  | .name =>
    let s := l.token.lexeme
    ((g.ops.between? s).isSome || (g.ops.behind? s).isSome) && (g.ops.before? s).isNone
  | _ => false

/-- May the next lexeme begin an operand? -/
def operandFollows (g : Grammar) : LexemeStream → Bool
  | .ok l :: _ => !g.endsOperand l
  | _ => false

/-- What a name makes that is no functor: a prefix operator or an atom. -/
def plainName (g : Grammar) (max : Nat) (name : String) (rest : LexemeStream) : Operand :=
  match g.ops.before? name with
  | some d =>
    if d.priority ≤ max ∧ g.operandFollows rest then
      .opened (.onlyOperand name d.priority max) d.rightMax rest
    else .complete (.atom name) rest
  | none => .complete (.atom name) rest

/-- What a name makes, read behind it. -/
def name (g : Grammar) (max : Nat) (name : String) : LexemeStream → Operand
  | [] => g.plainName max name []
  | .error e :: rest => .failed e rest
  | .ok l :: rest =>
    if l.layoutBefore then g.plainName max name (.ok l :: rest)
    else if l.isPunct "(" then .opened (.contents (.arguments name []) max) argumentMax rest
    else if name = "-" ∧ l.token.kind = .natural then .ofInteger l.token true rest
    else if name = "-" ∧ l.token.kind = .float then .failed ⟨.float, l.token.span⟩ rest
    else g.plainName max name (.ok l :: rest)

/-- The beginning of an operand of at most the given priority. -/
def operand (g : Grammar) (max : Nat) : LexemeStream → Operand
  | [] => .failed ⟨.unexpectedEnd, .point g.textEnd⟩ []
  | .error e :: rest => .failed e rest
  | .ok l :: rest =>
    match l.token.kind with
    | .natural => .ofInteger l.token false rest
    | .float => .failed ⟨.float, l.token.span⟩ rest
    | .var => .complete (.var l.token.lexeme) rest
    | .string => .complete (.codes l.token.lexeme) rest
    | .name => g.name max l.token.lexeme rest
    | .punct =>
      if l.isPunct "(" then .opened (.contents .paren max) OpTable.maxPriority rest
      else if l.isPunct "[" then .ofBracket "]" .nil (.contents (.items []) max) argumentMax rest
      else if l.isPunct "\x7b" then
        .ofBracket "\x7d" (.atom "{}") (.contents .curly max) OpTable.maxPriority rest
      else .failed (g.unexpected .term (some l)) rest
    | .layout => .failed (g.unexpected .term (some l)) rest
    | .stop => .failed (g.unexpected .term (some l)) rest

end Grammar

/-! ## Something is read -/

/-- What is left to be read behind the beginning of an operand. -/
def Operand.rest : Operand → LexemeStream
  | .complete _ rest => rest
  | .opened _ _ rest => rest
  | .failed _ rest => rest

@[simp] theorem Operand.rest_complete (e : Expr) (rest : LexemeStream) :
    (Operand.complete e rest).rest = rest := rfl

@[simp] theorem Operand.rest_opened (f : Frame) (max : Nat) (rest : LexemeStream) :
    (Operand.opened f max rest).rest = rest := rfl

@[simp] theorem Operand.rest_failed (e : ReadError) (rest : LexemeStream) :
    (Operand.failed e rest).rest = rest := rfl

@[simp] theorem Operand.rest_ofInteger (t : Token) (negative : Bool) (rest : LexemeStream) :
    (Operand.ofInteger t negative rest).rest = rest := by
  unfold Operand.ofInteger
  split <;> rfl

theorem Operand.length_rest_ofBracket_le (close : String) (empty : Expr) (f : Frame) (max : Nat)
    (rest : LexemeStream) :
    (Operand.ofBracket close empty f max rest).rest.length ≤ rest.length := by
  unfold Operand.ofBracket
  repeat' split
  all_goals simp

namespace Grammar

@[simp] theorem rest_plainName (g : Grammar) (max : Nat) (name : String) (rest : LexemeStream) :
    (g.plainName max name rest).rest = rest := by
  unfold plainName
  repeat' split
  all_goals rfl

theorem length_rest_name_le (g : Grammar) (max : Nat) (name : String) (rest : LexemeStream) :
    (g.name max name rest).rest.length ≤ rest.length := by
  unfold Grammar.name
  repeat' split
  all_goals simp

/-- The beginning of an operand takes at least one lexeme. -/
theorem length_rest_operand_lt (g : Grammar) (max : Nat) {stream : LexemeStream}
    (h : stream ≠ []) : (g.operand max stream).rest.length < stream.length := by
  unfold operand
  split
  · exact absurd rfl h
  · simp
  · next l rest =>
    have hb := fun c e f m => Operand.length_rest_ofBracket_le c e f m rest
    have hn := g.length_rest_name_le max l.token.lexeme rest
    simp only [List.length_cons, Nat.lt_succ_iff]
    repeat' split
    all_goals simp [hb, hn]

end Grammar

end PrologTerms
