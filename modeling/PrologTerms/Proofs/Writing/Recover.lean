import PrologTerms.Proofs.Writing.Clause

/-!
# Pieces are recovered from lexemes

What was written in tidy pieces can be told from the lexemes that it is read as: two lexemes side by
side are one piece only if they are a pair of brackets or a negative number, and a name is a functor
only if a bracket comes right behind it. So texts that are read as the same lexemes were written in the
same pieces, up to the names of variables.
-/

namespace PrologTerms

/-- The piece that two lexemes are together, if they are one. -/
def Lexeme.joined? (l l' : Lexeme) : Option Piece :=
  if l'.layoutBefore then none
  else if l.isPunct "[" && l'.isPunct "]" then some (.atom "[]")
  else if l.isPunct "\x7b" && l'.isPunct "\x7d" then some (.atom "{}")
  else if l.token.kind = .name ∧ l'.token.kind = .natural then
    l'.token.naturalValue?.map fun n => .int (-n)
  else none

/-- The piece that a lexeme is, with another one behind it. The variables of names are as `code`
says. -/
def Lexeme.single (code : String → Address) (l l' : Lexeme) : Piece :=
  match l.token.kind with
  | .var => .var (code l.token.lexeme)
  | .natural => .int (l.token.naturalValue?.getD 0)
  | .name =>
    if !l'.layoutBefore && l'.isPunct "(" then .functor l.token.lexeme else .atom l.token.lexeme
  | _ => .punct (l.token.lexeme.toList.head?.getD ' ')

namespace LexemeStream

/-- The pieces in which the first clause was written. -/
def toPieces (code : String → Address) : LexemeStream → List Piece
  | .ok l :: .ok l' :: rest =>
    if l.token.kind = .stop then []
    else
      (if l.layoutBefore then [.space] else []) ++
        match l.joined? l' with
        | some p => p :: toPieces code rest
        | none => l.single code l' :: toPieces code (.ok l' :: rest)
  | _ => []

end LexemeStream

variable {naming : Address → String} {code : String → Address} {more : List Char} {ps : List Piece}
  {b : Bool} {stream rest : LexemeStream} {l l' : Lexeme} {name : String}

open LexemeStream

theorem toPieces_stop (h : l.token.kind = .stop) : toPieces code (.ok l :: rest) = [] := by
  match rest with
  | [] => rfl
  | .ok l' :: rest => rw [toPieces, if_pos h]
  | .error e :: rest => rfl

theorem toPieces_joined {p : Piece} (h : l.joined? l' = some p) (hk : l.token.kind ≠ .stop) :
    toPieces code (.ok l :: .ok l' :: rest) =
      (if l.layoutBefore then [.space] else []) ++ p :: toPieces code rest := by
  rw [toPieces, if_neg hk, h]

theorem toPieces_single (h : l.joined? l' = none) (hk : l.token.kind ≠ .stop) :
    toPieces code (.ok l :: .ok l' :: rest) =
      (if l.layoutBefore then [.space] else []) ++
        l.single code l' :: toPieces code (.ok l' :: rest) := by
  rw [toPieces, if_neg hk, h]

theorem joined?_of_kind (hp : l.token.kind ≠ .punct) (hn : l.token.kind ≠ .name) :
    l.joined? l' = none := by
  simp [Lexeme.joined?, Lexeme.isPunct, Token.isPunct, hp, hn]

/-- A name does not join with what ends it. -/
theorem joined?_of_plain (hk : l.token.kind = .name)
    (h : l'.layoutBefore = true ∨ l'.token.kind ≠ .natural) : l.joined? l' = none := by
  rcases h with h | h
  · simp [Lexeme.joined?, h]
  · simp [Lexeme.joined?, Lexeme.isPunct, Token.isPunct, hk, h]

/-- A bracket joins with its closing counterpart only. -/
theorem joined?_of_not_close (hk : l.token.kind = .punct)
    (h : l.isPunct "[" = true ∨ l.isPunct "\x7b" = true → l'.closes = false) :
    l.joined? l' = none := by
  have hsquare : (l.isPunct "[" && l'.isPunct "]") = false := by
    rw [Bool.and_eq_false_imp]
    exact fun hl => isPunct_of_not_closes (h (.inl hl)) (by simp)
  have hcurly : (l.isPunct "\x7b" && l'.isPunct "\x7d") = false := by
    rw [Bool.and_eq_false_imp]
    exact fun hl => isPunct_of_not_closes (h (.inr hl)) (by simp)
  simp [Lexeme.joined?, hsquare, hcurly, hk]

/-- A lexeme that does not join with the next one is a piece. -/
theorem toPieces_lexeme {p : Piece} {kind : TokenKind} {s : String} (hl : l.Is kind s b)
    (hk : kind ≠ .stop) (hrest : Spells naming more ps false rest)
    (h : ∀ l' rest', rest = .ok l' :: rest' → l.joined? l' = none ∧ l.single code l' = p) :
    toPieces code (.ok l :: rest) = (if b then [.space] else []) ++ p :: toPieces code rest := by
  obtain ⟨l', rest', rfl⟩ := hrest.exists_cons
  obtain ⟨hjoined, hsingle⟩ := h l' rest' rfl
  rw [toPieces_single hjoined (hl.kind ▸ hk), hl.layoutBefore, hsingle]

/-- Two brackets that join are a piece. -/
theorem toPieces_brackets {c d : String} {p : Piece}
    (hjoined : ∀ l l' : Lexeme, l.Is .punct c b → l'.Is .punct d false → l.joined? l' = some p)
    (hs : Begins (Spells naming more ps) [(.punct, c), (.punct, d)] b stream) :
    ∃ rest, Spells naming more ps false rest ∧
      toPieces code stream = (if b then [.space] else []) ++ p :: toPieces code rest := by
  obtain ⟨l, rest, rfl, hl, l', rest', rfl, hl', hrest⟩ := hs
  refine ⟨rest', hrest, ?_⟩
  rw [toPieces_joined (hjoined l l' hl hl') (by simp [hl.kind]), hl.layoutBefore]

/-- A name is an atom if what comes behind it makes it neither a functor nor a sign. -/
theorem single_atom (hl : l.Is .name name b) (hplain : l'.layoutBefore = true ∨
      l'.token.kind = .punct ∧ l'.isPunct "(" = false ∨ l'.token.kind = .stop) :
    l.joined? l' = none ∧ l.single code l' = .atom name := by
  have hparen : (!l'.layoutBefore && l'.isPunct "(") = false := by
    rcases hplain with h | ⟨-, h⟩ | h
    · simp [h]
    · simp [h]
    · simp [Lexeme.isPunct, Token.isPunct, h]
  have hnatural : l'.layoutBefore = true ∨ l'.token.kind ≠ .natural := by
    rcases hplain with h | ⟨h, -⟩ | h
    · exact .inl h
    · exact .inr (by simp [h])
    · exact .inr (by simp [h])
  refine ⟨joined?_of_plain hl.kind hnatural, ?_⟩
  rw [Lexeme.single, hl.kind, hparen, hl.lexeme]
  rfl

theorem toPieces_atom (ht : Tidy (.atom name :: ps))
    (hs : Spells naming more (.atom name :: ps) b stream) : ∃ rest, Spells naming more ps false rest ∧
      toPieces code stream = (if b then [.space] else []) ++ .atom name :: toPieces code rest := by
  by_cases h₁ : name = "[]"
  · subst h₁
    refine toPieces_brackets (fun l l' hl hl' => ?_) hs
    simp only [Lexeme.joined?, hl.isPunct, hl'.isPunct, hl'.layoutBefore]
    rfl
  by_cases h₂ : name = "{}"
  · subst h₂
    refine toPieces_brackets (fun l l' hl hl' => ?_) hs
    simp only [Lexeme.joined?, hl.isPunct, hl'.isPunct, hl'.layoutBefore]
    rfl
  obtain ⟨l, rest, rfl, hl, hrest⟩ := hs.atom h₁ h₂
  refine ⟨rest, hrest, toPieces_lexeme hl (by decide) hrest fun l' rest' e => ?_⟩
  subst e
  exact single_atom hl (hrest.plain ht.1)

/-- The first piece is recovered. -/
theorem toPieces_first {p : Piece} (hp : p ≠ .space) (ht : Tidy (p :: ps))
    (hs : Spells naming more (p :: ps) b stream) : ∃ rest, Spells naming more ps false rest ∧
      toPieces code stream = (if b then [.space] else []) ++
        p.rename (fun i => code (naming i)) :: toPieces code rest := by
  cases p with
  | space => exact absurd rfl hp
  | var i =>
    obtain ⟨l, rest, rfl, hl, hrest⟩ := hs
    refine ⟨rest, hrest, toPieces_lexeme hl (by decide) hrest fun l' rest' _ => ⟨?_, ?_⟩⟩
    · exact joined?_of_kind (by simp [hl.kind]) (by simp [hl.kind])
    · rw [Lexeme.single, hl.kind, hl.lexeme]
      rfl
  | int n =>
    cases n with
    | ofNat n =>
      obtain ⟨l, rest, rfl, hl, hrest⟩ := hs
      refine ⟨rest, hrest, toPieces_lexeme hl (by decide) hrest fun l' rest' _ => ⟨?_, ?_⟩⟩
      · exact joined?_of_kind (by simp [hl.kind]) (by simp [hl.kind])
      · rw [Lexeme.single, hl.kind, Token.naturalValue?_toDigits hl.kind hl.lexeme]
        rfl
    | negSucc n =>
      obtain ⟨l, rest, rfl, hl, l', rest', rfl, hl', hrest⟩ := hs
      have hjoined : l.joined? l' = some (.int (Int.negSucc n)) := by
        simp only [Lexeme.joined?, Lexeme.isPunct, Token.isPunct, hl.kind, hl'.kind, hl'.layoutBefore,
          Token.naturalValue?_toDigits hl'.kind hl'.lexeme]
        rfl
      refine ⟨rest', hrest, ?_⟩
      rw [toPieces_joined hjoined (by simp [hl.kind]), hl.layoutBefore]
      rfl
  | atom name => exact toPieces_atom ht hs
  | functor name =>
    obtain ⟨l, rest, rfl, hl, hrest⟩ := hs.functor
    obtain ⟨qs, rfl⟩ := ht.1
    refine ⟨rest, hrest, toPieces_lexeme hl (by decide) hrest fun l' rest' e => ?_⟩
    subst e
    obtain ⟨l'', rest'', e, hl', -⟩ := hrest.punct
    cases e
    refine ⟨joined?_of_plain hl.kind (.inr (by simp [hl'.kind])), ?_⟩
    rw [Lexeme.single, hl.kind, hl'.layoutBefore, hl'.isPunct, hl.lexeme]
    rfl
  | punct c =>
    obtain ⟨l, rest, rfl, hl, hrest⟩ := hs.punct
    refine ⟨rest, hrest, toPieces_lexeme hl (by decide) hrest fun l' rest' e => ⟨?_, ?_⟩⟩
    · subst e
      refine joined?_of_not_close hl.kind fun h => ?_
      rcases ht.1 with ⟨-, q, qs, rfl, hq⟩ | hc
      · exact (hrest.opens hq).1
      · have hall : ∀ c ∈ closers, ¬ ((String.ofList [c] == "[") = true ∨
            (String.ofList [c] == "\x7b") = true) := List.all_iff_forall_prop.1 (by decide)
        rw [hl.isPunct, hl.isPunct] at h
        exact absurd h (hall c hc)
    · rw [Lexeme.single, hl.kind, hl.lexeme]
      simp [Piece.rename]

/-- All pieces are recovered, up to the names of variables. -/
theorem toPieces_of_spells (ht : Tidy ps) (hb : b = true → Opens ps)
    (hs : Spells naming more ps b stream) : toPieces code stream =
      (if b then [.space] else []) ++ ps.map (.rename fun i => code (naming i)) := by
  induction ps generalizing b stream with
  | nil =>
    obtain ⟨l, rest, rfl, hk, -⟩ := hs
    rw [toPieces_stop hk]
    cases b with
    | false => rfl
    | true =>
      obtain ⟨q, qs, e, -⟩ := hb rfl
      cases e
  | cons p ps ih =>
    by_cases hp : p = .space
    · subst hp
      cases b with
      | true =>
        obtain ⟨q, qs, e, hq⟩ := hb rfl
        cases e
        cases hq
      | false => exact ih ht.tail (fun _ => ht.1) hs
    · obtain ⟨rest, hrest, e⟩ := toPieces_first hp ht hs
      rw [e, ih ht.tail (by simp) hrest]
      rfl

end PrologTerms
