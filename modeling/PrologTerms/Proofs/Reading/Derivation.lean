import PrologTerms.Proofs.Reading.Meaning
import PrologTerms.Reading.Clause

/-!
# The grammar of operators

The grammar says which lexemes can be put together to which trees, and with which priority; it says
nothing of how to choose if there are several ways.

An expression is read from lexemes if all the trees that it can mean are derived from them.
-/

namespace PrologTerms

/-- The list of the given elements in front of the given tail. -/
def Tree.list (items : List Tree) (tail : Tree) : Tree :=
  items.foldr (fun head tail => .compound "." [head, tail]) tail

/-- The name of the variable that a lexeme is. -/
def Lexeme.varName? (l : Lexeme) : Option String :=
  if l.token.kind = .var then some l.token.lexeme else none

/-! ## The grammar -/

namespace OpTable

mutual

/-- The lexemes can be put together to the tree with the given priority. -/
inductive Derives (ops : OpTable) : List Lexeme → Nat → Tree → Prop
  /-- A variable. -/
  | var {l : Lexeme} (i : Address) (hl : l.token.kind = .var) : Derives ops [l] 0 (.var i)
  /-- A number. -/
  | natural {l : Lexeme} {n : Int} (hl : l.token.kind = .natural)
      (hn : l.token.integer false = .ok n) : Derives ops [l] 0 (.int n)
  /-- A minus sign with a number right behind it. -/
  | negative {l l' : Lexeme} {n : Int} (hl : l.token.kind = .name) (hminus : l.token.lexeme = "-")
      (hl' : l'.token.kind = .natural) (hright : l'.layoutBefore = false)
      (hn : l'.token.integer true = .ok n) : Derives ops [l, l'] 0 (.int n)
  /-- A string, which is the list of its character codes. -/
  | string {l : Lexeme} (hl : l.token.kind = .string) : Derives ops [l] 0
      (.list (l.token.lexeme.toList.map fun c => .int c.toNat) (.atom "[]"))
  /-- An atom. -/
  | atom {l : Lexeme} (hl : l.token.kind = .name) : Derives ops [l] 0 (.atom l.token.lexeme)
  /-- The empty list. -/
  | nil {l l' : Lexeme} (hl : l.isPunct "[" = true) (hl' : l'.isPunct "]" = true) :
      Derives ops [l, l'] 0 (.atom "[]")
  /-- Curly brackets around nothing. -/
  | braces {l l' : Lexeme} (hl : l.isPunct "\x7b" = true) (hl' : l'.isPunct "\x7d" = true) :
      Derives ops [l, l'] 0 (.atom "{}")
  /-- A term in brackets. -/
  | paren {l l' : Lexeme} {ls : List Lexeme} {p : Nat} {t : Tree} (hl : l.isPunct "(" = true)
      (h : Derives ops ls p t) (hp : p ≤ maxPriority) (hl' : l'.isPunct ")" = true) :
      Derives ops (l :: ls ++ [l']) 0 t
  /-- A term in curly brackets. -/
  | curly {l l' : Lexeme} {ls : List Lexeme} {p : Nat} {t : Tree} (hl : l.isPunct "\x7b" = true)
      (h : Derives ops ls p t) (hp : p ≤ maxPriority) (hl' : l'.isPunct "\x7d" = true) :
      Derives ops (l :: ls ++ [l']) 0 (.compound "{}" [t])
  /-- A name with its arguments right behind it. -/
  | call {f l l' : Lexeme} {ls : List Lexeme} {ts : List Tree} (hf : f.token.kind = .name)
      (hl : l.isPunct "(" = true) (hright : l.layoutBefore = false) (h : DerivesAll ops ls ts)
      (hl' : l'.isPunct ")" = true) : Derives ops (f :: l :: ls ++ [l']) 0 (.compound f.token.lexeme ts)
  /-- A list. -/
  | items {l l' : Lexeme} {ls : List Lexeme} {ts : List Tree} (hl : l.isPunct "[" = true)
      (h : DerivesAll ops ls ts) (hl' : l'.isPunct "]" = true) :
      Derives ops (l :: ls ++ [l']) 0 (.list ts (.atom "[]"))
  /-- A list with a tail. -/
  | tail {l bar l' : Lexeme} {ls ls' : List Lexeme} {ts : List Tree} {p : Nat} {t : Tree}
      (hl : l.isPunct "[" = true) (h : DerivesAll ops ls ts) (hbar : bar.isPunct "|" = true)
      (h' : Derives ops ls' p t) (hp : p ≤ argumentMax) (hl' : l'.isPunct "]" = true) :
      Derives ops (l :: ls ++ bar :: ls' ++ [l']) 0 (.list ts t)
  /-- An operator between its operands. -/
  | between {l : Lexeme} {ls ls' : List Lexeme} {name : String} {d : OpDef} {p p' : Nat}
      {t t' : Tree} (hl : l.operatorName? = some name) (hd : ops.between? name = some d)
      (h : Derives ops ls p t) (hp : p ≤ d.leftMax) (h' : Derives ops ls' p' t')
      (hp' : p' ≤ d.rightMax) :
      Derives ops (ls ++ l :: ls') d.priority (.compound l.operatorTerm [t, t'])
  /-- An operator before its operand. -/
  | before {l : Lexeme} {ls : List Lexeme} {d : OpDef} {p : Nat} {t : Tree}
      (hl : l.token.kind = .name) (hd : ops.before? l.token.lexeme = some d)
      (h : Derives ops ls p t) (hp : p ≤ d.rightMax) :
      Derives ops (l :: ls) d.priority (.compound l.token.lexeme [t])
  /-- An operator behind its operand. -/
  | behind {l : Lexeme} {ls : List Lexeme} {name : String} {d : OpDef} {p : Nat} {t : Tree}
      (hl : l.operatorName? = some name) (hd : ops.behind? name = some d)
      (h : Derives ops ls p t) (hp : p ≤ d.leftMax) :
      Derives ops (ls ++ [l]) d.priority (.compound l.operatorTerm [t])

/-- The lexemes can be put together to the trees with commas between them. -/
inductive DerivesAll (ops : OpTable) : List Lexeme → List Tree → Prop
  /-- One tree. -/
  | one {ls : List Lexeme} {p : Nat} {t : Tree} (h : Derives ops ls p t) (hp : p ≤ argumentMax) :
      DerivesAll ops ls [t]
  /-- One more tree. -/
  | more {l : Lexeme} {ls ls' : List Lexeme} {ts : List Tree} {p : Nat} {t : Tree}
      (hs : DerivesAll ops ls ts) (hl : l.isPunct "," = true) (h : Derives ops ls' p t)
      (hp : p ≤ argumentMax) : DerivesAll ops (ls ++ l :: ls') (ts ++ [t])

end

end OpTable

/-! ## Expressions that are derived -/

namespace Expr

variable {R : String → Address → Prop} {es : List Expr} {tail : Expr} {t : Tree}

theorem varNames_list (es : List Expr) (tail : Expr) :
    (list es tail).varNames = varNamesAll es ++ tail.varNames := by
  induction es with
  | nil => rfl
  | cons e es ih =>
    show varNamesAll [e, list es tail] = _
    rw [varNamesAll, varNamesAll, varNamesAll, ih, varNamesAll, List.append_nil, List.append_assoc]

theorem varNames_codes (s : String) : (codes s).varNames = [] := by
  have h : ∀ cs : List Char, varNamesAll (cs.map fun c => .int c.toNat) = [] := by
    intro cs
    induction cs with
    | nil => rfl
    | cons c cs ih => exact ih
  rw [codes, varNames_list, h]
  rfl

theorem exists_of_denotes_list (h : (list es tail).Denotes R t) :
    ∃ ts u, t = .list ts u ∧ DenotesAll R es ts ∧ tail.Denotes R u := by
  induction es generalizing t with
  | nil => exact ⟨[], t, rfl, rfl, h⟩
  | cons e es ih =>
    obtain ⟨ts, rfl, v, vs, rfl, hv, hvs⟩ := exists_of_denotes_call h
    obtain ⟨w, rfl, hw⟩ := exists_of_denotesAll_one hvs
    obtain ⟨us, u, rfl, hus, hu⟩ := ih hw
    exact ⟨v :: us, u, rfl, ⟨v, us, rfl, hv, hus⟩, hu⟩

theorem eq_of_denotes_codes {s : String} (h : (codes s).Denotes R t) :
    t = .list (s.toList.map fun c => .int c.toNat) (.atom "[]") := by
  obtain ⟨ts, u, rfl, hts, hu⟩ := exists_of_denotes_list h
  rw [show u = .atom "[]" from hu]
  congr 1
  clear h hu
  generalize s.toList = cs at hts ⊢
  induction cs generalizing ts with
  | nil => exact hts
  | cons c cs ih =>
    obtain ⟨v, vs, rfl, hv, hvs⟩ := hts
    rw [ih vs hvs, show v = .int c.toNat from hv, List.map_cons]

end Expr

/-- The lexemes are those of the expression: all trees that it can mean have a derivation, and the
variables have the same names. -/
structure ReadFrom (ops : OpTable) (ls : List Lexeme) (p : Nat) (e : Expr) : Prop where
  /-- The derivations. -/
  derives : ∀ R t, e.Denotes R t → ops.Derives ls p t
  /-- The variables. -/
  names : e.varNames = ls.filterMap Lexeme.varName?

/-- The lexemes are those of the expressions, with commas between them. -/
structure AllReadFrom (ops : OpTable) (ls : List Lexeme) (es : List Expr) : Prop where
  /-- The derivations. -/
  derives : ∀ R ts, Expr.DenotesAll R es ts → ops.DerivesAll ls ts
  /-- The variables. -/
  names : Expr.varNamesAll es = ls.filterMap Lexeme.varName?

section ReadFrom

variable {ops : OpTable} {ls ls' : List Lexeme} {l l' f bar : Lexeme} {p p' : Nat} {e e' : Expr}
  {es : List Expr} {name : String} {d : OpDef}

theorem Lexeme.varName?_of_ne (h : l.token.kind ≠ .var) : l.varName? = none := if_neg h

theorem Lexeme.varName?_punct {s : String} (h : l.isPunct s = true) : l.varName? = none := by
  refine varName?_of_ne fun e => ?_
  rw [Lexeme.isPunct, Token.isPunct, e] at h
  cases h

theorem Lexeme.varName?_name (h : l.token.kind = .name) : l.varName? = none :=
  varName?_of_ne (by rw [h]; decide)

theorem Lexeme.varName?_operator (h : l.operatorName? = some name) : l.varName? = none := by
  refine varName?_of_ne fun e => ?_
  rw [Lexeme.operatorName?, e] at h
  cases h

theorem readFrom_var (hl : l.token.kind = .var) : ReadFrom ops [l] 0 (.var l.token.lexeme) := by
  refine ⟨fun R t h => ?_, ?_⟩
  · obtain ⟨i, rfl, -⟩ := h
    exact .var i hl
  · simp [Lexeme.varName?, hl]

theorem readFrom_natural {n : Int} (hl : l.token.kind = .natural) (hn : l.token.integer false = .ok n) :
    ReadFrom ops [l] 0 (.int n) := by
  refine ⟨fun R t h => ?_, ?_⟩
  · rw [show t = .int n from h]
    exact .natural hl hn
  · simp [Lexeme.varName?, hl]

theorem readFrom_negative {n : Int} (hl : l.token.kind = .name) (hminus : l.token.lexeme = "-")
    (hl' : l'.token.kind = .natural) (hright : l'.layoutBefore = false)
    (hn : l'.token.integer true = .ok n) : ReadFrom ops [l, l'] 0 (.int n) := by
  refine ⟨fun R t h => ?_, ?_⟩
  · rw [show t = .int n from h]
    exact .negative hl hminus hl' hright hn
  · simp [Lexeme.varName?, hl, hl']

theorem readFrom_string (hl : l.token.kind = .string) : ReadFrom ops [l] 0 (.codes l.token.lexeme) := by
  refine ⟨fun R t h => ?_, ?_⟩
  · rw [Expr.eq_of_denotes_codes h]
    exact .string hl
  · simp [Expr.varNames_codes, Lexeme.varName?, hl]

theorem readFrom_atom (hl : l.token.kind = .name) : ReadFrom ops [l] 0 (.atom l.token.lexeme) := by
  refine ⟨fun R t h => ?_, ?_⟩
  · rw [show t = .atom l.token.lexeme from h]
    exact .atom hl
  · simp [Lexeme.varName?, hl]

theorem readFrom_nil (hl : l.isPunct "[" = true) (hl' : l'.isPunct "]" = true) :
    ReadFrom ops [l, l'] 0 .nil := by
  refine ⟨fun R t h => ?_, ?_⟩
  · rw [show t = .atom "[]" from h]
    exact .nil hl hl'
  · simp [Expr.nil, Lexeme.varName?_punct hl, Lexeme.varName?_punct hl']

theorem readFrom_braces (hl : l.isPunct "\x7b" = true) (hl' : l'.isPunct "\x7d" = true) :
    ReadFrom ops [l, l'] 0 (.atom "{}") := by
  refine ⟨fun R t h => ?_, ?_⟩
  · rw [show t = .atom "{}" from h]
    exact .braces hl hl'
  · simp [Lexeme.varName?_punct hl, Lexeme.varName?_punct hl']

theorem readFrom_paren (hl : l.isPunct "(" = true) (h : ReadFrom ops ls p e)
    (hp : p ≤ OpTable.maxPriority) (hl' : l'.isPunct ")" = true) : ReadFrom ops (l :: ls ++ [l']) 0 e := by
  refine ⟨fun R t ht => .paren hl (h.derives R t ht) hp hl', ?_⟩
  simp [h.names, Lexeme.varName?_punct hl, Lexeme.varName?_punct hl']

theorem readFrom_curly (hl : l.isPunct "\x7b" = true) (h : ReadFrom ops ls p e)
    (hp : p ≤ OpTable.maxPriority) (hl' : l'.isPunct "\x7d" = true) :
    ReadFrom ops (l :: ls ++ [l']) 0 (.curly e) := by
  refine ⟨fun R t ht => ?_, ?_⟩
  · obtain ⟨ts, rfl, hts⟩ := Expr.exists_of_denotes_call ht
    obtain ⟨u, rfl, hu⟩ := Expr.exists_of_denotesAll_one hts
    exact .curly hl (h.derives R u hu) hp hl'
  · simp [Expr.curly, Expr.varNames_call, h.names, Lexeme.varName?_punct hl,
      Lexeme.varName?_punct hl']

theorem readFrom_call (hf : f.token.kind = .name) (hl : l.isPunct "(" = true)
    (hright : l.layoutBefore = false) (h : AllReadFrom ops ls es) (hl' : l'.isPunct ")" = true) :
    ReadFrom ops (f :: l :: ls ++ [l']) 0 (.call f.token.lexeme es) := by
  refine ⟨fun R t ht => ?_, ?_⟩
  · obtain ⟨ts, rfl, hts⟩ := Expr.exists_of_denotes_call ht
    exact .call hf hl hright (h.derives R ts hts) hl'
  · simp [Expr.varNames_call, h.names, Lexeme.varName?_name hf, Lexeme.varName?_punct hl,
      Lexeme.varName?_punct hl']

theorem readFrom_items (hl : l.isPunct "[" = true) (h : AllReadFrom ops ls es)
    (hl' : l'.isPunct "]" = true) : ReadFrom ops (l :: ls ++ [l']) 0 (.list es .nil) := by
  refine ⟨fun R t ht => ?_, ?_⟩
  · obtain ⟨ts, u, rfl, hts, hu⟩ := Expr.exists_of_denotes_list ht
    rw [show u = .atom "[]" from hu]
    exact .items hl (h.derives R ts hts) hl'
  · simp [Expr.varNames_list, Expr.nil, h.names, Lexeme.varName?_punct hl,
      Lexeme.varName?_punct hl']

theorem readFrom_tail (hl : l.isPunct "[" = true) (h : AllReadFrom ops ls es)
    (hbar : bar.isPunct "|" = true) (h' : ReadFrom ops ls' p e) (hp : p ≤ argumentMax)
    (hl' : l'.isPunct "]" = true) :
    ReadFrom ops (l :: ls ++ bar :: ls' ++ [l']) 0 (.list es e) := by
  refine ⟨fun R t ht => ?_, ?_⟩
  · obtain ⟨ts, u, rfl, hts, hu⟩ := Expr.exists_of_denotes_list ht
    exact .tail hl (h.derives R ts hts) hbar (h'.derives R u hu) hp hl'
  · simp [Expr.varNames_list, h.names, h'.names, Lexeme.varName?_punct hl,
      Lexeme.varName?_punct hbar, Lexeme.varName?_punct hl']

theorem readFrom_between (hl : l.operatorName? = some name) (hd : ops.between? name = some d)
    (h : ReadFrom ops ls p e) (hp : p ≤ d.leftMax) (h' : ReadFrom ops ls' p' e')
    (hp' : p' ≤ d.rightMax) : ReadFrom ops (ls ++ l :: ls') d.priority (.compound [e] l.operatorTerm [e']) := by
  refine ⟨fun R t ht => ?_, ?_⟩
  · obtain ⟨as, bs, rfl, ha, hb⟩ := ht
    obtain ⟨u, rfl, hu⟩ := Expr.exists_of_denotesAll_one ha
    obtain ⟨v, rfl, hv⟩ := Expr.exists_of_denotesAll_one hb
    exact .between hl hd (h.derives R u hu) hp (h'.derives R v hv) hp'
  · simp [h.names, h'.names, Lexeme.varName?_operator hl]

theorem readFrom_before (hl : l.token.kind = .name) (hd : ops.before? l.token.lexeme = some d)
    (h : ReadFrom ops ls p e) (hp : p ≤ d.rightMax) :
    ReadFrom ops (l :: ls) d.priority (.compound [] l.token.lexeme [e]) := by
  refine ⟨fun R t ht => ?_, ?_⟩
  · obtain ⟨ts, rfl, hts⟩ := Expr.exists_of_denotes_call ht
    obtain ⟨u, rfl, hu⟩ := Expr.exists_of_denotesAll_one hts
    exact .before hl hd (h.derives R u hu) hp
  · simp [h.names, Lexeme.varName?_name hl]

theorem readFrom_behind (hl : l.operatorName? = some name) (hd : ops.behind? name = some d)
    (h : ReadFrom ops ls p e) (hp : p ≤ d.leftMax) :
    ReadFrom ops (ls ++ [l]) d.priority (.compound [e] l.operatorTerm []) := by
  refine ⟨fun R t ht => ?_, ?_⟩
  · obtain ⟨as, bs, rfl, ha, hb⟩ := ht
    obtain ⟨u, rfl, hu⟩ := Expr.exists_of_denotesAll_one ha
    rw [show bs = [] from hb]
    exact .behind hl hd (h.derives R u hu) hp
  · simp [h.names, Lexeme.varName?_operator hl]

theorem allReadFrom_one (h : ReadFrom ops ls p e) (hp : p ≤ argumentMax) : AllReadFrom ops ls [e] := by
  refine ⟨fun R ts ht => ?_, ?_⟩
  · obtain ⟨u, rfl, hu⟩ := Expr.exists_of_denotesAll_one ht
    exact .one (h.derives R u hu) hp
  · simp [h.names]

theorem allReadFrom_more (hs : AllReadFrom ops ls es) (hl : l.isPunct "," = true)
    (h : ReadFrom ops ls' p e) (hp : p ≤ argumentMax) : AllReadFrom ops (ls ++ l :: ls') (es ++ [e]) := by
  refine ⟨fun R ts ht => ?_, ?_⟩
  · obtain ⟨us, us', rfl, hus, hus'⟩ := Expr.exists_of_denotesAll_append ht
    obtain ⟨u, rfl, hu⟩ := Expr.exists_of_denotesAll_one hus'
    exact .more (hs.derives R us hus) hl (h.derives R u hu) hp
  · simp [hs.names, h.names, Lexeme.varName?_punct hl]

end ReadFrom

end PrologTerms
