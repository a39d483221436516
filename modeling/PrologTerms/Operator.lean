/-!
# Operators

An operator is a name with a priority and a class. The class tells where the operator stands and
which of its operands may have the operator's own priority. A table holds at most one operator per
name and place; looking a name up gives what was defined last.
-/

namespace PrologTerms

/-- Where an operator stands. -/
inductive Fixity
  /-- Before its operand. -/
  | before
  /-- Between its operands. -/
  | between
  /-- Behind its operand. -/
  | behind
deriving Repr, DecidableEq

/-- The class of an operator. The `f` stands for the operator; an operand at an `x` has a lower
priority than the operator, and one at a `y` may have the same. -/
inductive OpClass
  | xfx
  | xfy
  | yfx
  | fy
  | fx
  | xf
  | yf
deriving Repr, DecidableEq

namespace OpClass

/-- Where operators of a class stand. -/
def fixity : OpClass → Fixity
  | .xfx => .between
  | .xfy => .between
  | .yfx => .between
  | .fy => .before
  | .fx => .before
  | .xf => .behind
  | .yf => .behind

/-- The name of a class. -/
def name : OpClass → String
  | .xfx => "xfx"
  | .xfy => "xfy"
  | .yfx => "yfx"
  | .fy => "fy"
  | .fx => "fx"
  | .xf => "xf"
  | .yf => "yf"

/-- All classes. -/
def all : List OpClass := [.xfx, .xfy, .yfx, .fy, .fx, .xf, .yf]

/-- The class of a name, if it is the name of one. -/
def ofName? (s : String) : Option OpClass := all.find? (·.name == s)

/-- What is said of a name that is the name of no class. -/
def unknownMessage (s : String) : String := "unknown operator type '" ++ s ++ "'"

end OpClass

/-- The definition of an operator. -/
structure OpDef where
  /-- The priority; in a table it is from 1 to 1200. -/
  priority : Nat
  /-- The class. -/
  cls : OpClass
deriving Repr, DecidableEq

namespace OpDef

/-- May a left operand have the priority of the operator? -/
def leftOpen (d : OpDef) : Bool := d.cls == .yfx || d.cls == .yf

/-- May a right operand have the priority of the operator? -/
def rightOpen (d : OpDef) : Bool := d.cls == .xfy || d.cls == .fy

/-- The highest priority of a left operand. -/
def leftMax (d : OpDef) : Nat := if d.leftOpen then d.priority else d.priority - 1

/-- The highest priority of a right operand. -/
def rightMax (d : OpDef) : Nat := if d.rightOpen then d.priority else d.priority - 1

/-- The highest priority of a left operand, if there is a priority low enough. -/
def leftMax? (d : OpDef) : Option Nat :=
  if d.leftOpen then some d.priority else if d.priority = 0 then none else some (d.priority - 1)

/-- The highest priority of a right operand, if there is a priority low enough. -/
def rightMax? (d : OpDef) : Option Nat :=
  if d.rightOpen then some d.priority else if d.priority = 0 then none else some (d.priority - 1)

/-- Does the definition place its operator there? -/
def stands (d : OpDef) (x : Fixity) : Bool := d.cls.fixity == x

end OpDef

/-- A collection of operators. -/
structure OpTable where
  /-- The operators with their names, the latest first. -/
  entries : List (String × OpDef) := []
deriving Repr, DecidableEq

namespace OpTable

/-- The table without operators. -/
def empty : OpTable := {}

/-- The highest priority that an operator can have. -/
def maxPriority : Nat := 1200

/-- Defines an operator in place of the one of the same name and place. The priority is capped at
1200; with priority 0 the old definition is only removed. -/
def add (t : OpTable) (name : String) (priority : Nat) (cls : OpClass) : OpTable :=
  let others := t.entries.filter fun e => !(e.1 == name && e.2.stands cls.fixity)
  if priority = 0 then ⟨others⟩ else ⟨(name, ⟨min priority maxPriority, cls⟩) :: others⟩

/-- The operator of a name that stands at a place. -/
def find? (t : OpTable) (name : String) (x : Fixity) : Option OpDef :=
  (t.entries.find? fun e => e.1 == name && e.2.stands x).map Prod.snd

/-- The operator of a name that stands before its operand. -/
def before? (t : OpTable) (name : String) : Option OpDef := t.find? name .before

/-- The operator of a name that stands between its operands. -/
def between? (t : OpTable) (name : String) : Option OpDef := t.find? name .between

/-- The operator of a name that stands behind its operand. -/
def behind? (t : OpTable) (name : String) : Option OpDef := t.find? name .behind

/-- Is the name an operator, wherever it stands? -/
def isOp (t : OpTable) (name : String) : Bool := t.entries.any (·.1 == name)

/-- The operators of standard Prolog, by priority and class. -/
def standardRows : List (Nat × OpClass × List String) :=
  [(1200, .xfx, [":-", "-->"]),
   (1200, .fx, [":-", "?-"]),
   (1150, .fx, ["dynamic", "discontiguous", "initialization", "multifile"]),
   (1100, .xfy, [";", "|"]),
   (1050, .xfy, ["->", "*->"]),
   (1000, .xfy, [","]),
   (900, .fy, ["\\+"]),
   (700, .xfx, ["=", "\\=", "==", "\\==", "@<", "@>", "@=<", "@>=", "=..", "is", "=:=", "=\\=",
     "<", ">", "=<", ">="]),
   (600, .xfy, [":"]),
   (500, .yfx, ["+", "-", "/\\", "\\/", "xor"]),
   (400, .yfx, ["*", "/", "//", "rem", "mod", "div", "<<", ">>"]),
   (200, .xfx, ["**"]),
   (200, .xfy, ["^"]),
   (200, .fy, ["-", "+", "\\"])]

/-- The table of the operators of standard Prolog. -/
def standard : OpTable :=
  ⟨standardRows.flatMap fun (priority, cls, names) => names.map fun n => (n, ⟨priority, cls⟩)⟩

end OpTable

end PrologTerms
