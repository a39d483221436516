import PrologTerms.Proofs.Writing.Lexeme

/-!
# The next lexeme of what was written

What stands behind a term decides what becomes of the term: a closing bracket, a comma or a bar ends
it, and an operator may take it as its operand. What stands at the front of a term decides whether it
can be the operand of a prefix operator.
-/

namespace PrologTerms

variable {g : Grammar} {naming : Address → String} {more : List Char} {k ps : List Piece} {b : Bool}
  {stream : LexemeStream} {m : Nat} {name : String} {c : Char}

/-! ## Single pieces -/

theorem Spells.punct (h : Spells naming more (.punct c :: k) b stream) :
    ∃ l rest, stream = .ok l :: rest ∧ l.Is .punct (String.ofList [c]) b ∧
      Spells naming more k false rest := h

theorem Spells.functor (h : Spells naming more (.functor name :: k) b stream) :
    ∃ l rest, stream = .ok l :: rest ∧ l.Is .name name b ∧ Spells naming more k false rest := h

/-- An atom that is no pair of brackets is a single lexeme. -/
theorem Spells.atom (h₁ : name ≠ "[]") (h₂ : name ≠ "{}")
    (h : Spells naming more (.atom name :: k) b stream) :
    ∃ l rest, stream = .ok l :: rest ∧ l.Is .name name b ∧ Spells naming more k false rest := by
  rw [Spells, Piece.tokens, if_neg h₁, if_neg h₂] at h
  · exact h
  · simp

/-- The lexeme that comes next. -/
theorem Spells.exists_cons (h : Spells naming more ps b stream) :
    ∃ l rest, stream = .ok l :: rest := by
  induction ps generalizing b with
  | nil =>
    obtain ⟨l, rest, rfl, -⟩ := h
    exact ⟨l, rest, rfl⟩
  | cons p ps ih =>
    cases p with
    | space => exact ih h
    | atom name =>
      rw [Spells, Piece.tokens] at h
      · split at h
        · obtain ⟨l, rest, rfl, -⟩ := h
          exact ⟨l, rest, rfl⟩
        · split at h
          all_goals
            obtain ⟨l, rest, rfl, -⟩ := h
            exact ⟨l, rest, rfl⟩
      · simp
    | int n =>
      cases n
      all_goals
        obtain ⟨l, rest, rfl, -⟩ := h
        exact ⟨l, rest, rfl⟩
    | _ =>
      obtain ⟨l, rest, rfl, -⟩ := h
      exact ⟨l, rest, rfl⟩

/-- Behind a space, the next lexeme has layout before it, or the clause ends. -/
theorem Spells.layoutBefore {l : Lexeme} {rest : LexemeStream}
    (h : Spells naming more ps true (.ok l :: rest)) :
    l.layoutBefore = true ∨ l.token.kind = .stop := by
  induction ps with
  | nil =>
    obtain ⟨l', rest', e, hk, -⟩ := h
    cases e
    exact .inr hk
  | cons p ps ih =>
    cases p with
    | space => exact ih h
    | atom name =>
      rw [Spells, Piece.tokens] at h
      · split at h
        · obtain ⟨l', rest', e, hl, -⟩ := h
          cases e
          exact .inl hl.layoutBefore
        · split at h
          all_goals
            obtain ⟨l', rest', e, hl, -⟩ := h
            cases e
            exact .inl hl.layoutBefore
      · simp
    | int n =>
      cases n
      all_goals
        obtain ⟨l', rest', e, hl, -⟩ := h
        cases e
        exact .inl hl.layoutBefore
    | _ =>
      obtain ⟨l', rest', e, hl, -⟩ := h
      cases e
      exact .inl hl.layoutBefore

/-! ## What comes behind a term -/

theorem closes_of_isPunct {l : Lexeme} (hc : c ∈ closers) (hl : l.Is .punct (String.ofList [c]) b) :
    l.closes = true := by
  have hall : ∀ c ∈ closers, String.ofList [c] ∈ [")", ",", "|", "]", "\x7d"] :=
    List.all_iff_forall_prop.1 (by decide)
  rw [Lexeme.closes, hl.kind, hl.lexeme]
  exact decide_eq_true (hall c hc)

/-- Where an operand cannot begin, the next lexeme says so. -/
theorem Spells.closes (hk : Ends k) {l : Lexeme} {rest : LexemeStream}
    (h : Spells naming more k b (.ok l :: rest)) : l.closes = true := by
  cases k with
  | nil =>
    obtain ⟨l', rest', e, hk, -⟩ := h
    cases e
    rw [Lexeme.closes, hk]
  | cons p k =>
    cases p with
    | punct c =>
      obtain ⟨l', rest', e, hl, -⟩ := h.punct
      cases e
      exact closes_of_isPunct hk hl
    | _ => exact hk.elim

/-- What comes behind a term makes a name in front of it no functor, and no sign of a number. -/
theorem Spells.plain (hk : Follows k) {l : Lexeme} {rest : LexemeStream}
    (h : Spells naming more k false (.ok l :: rest)) : l.layoutBefore = true ∨
      l.token.kind = .punct ∧ l.isPunct "(" = false ∨ l.token.kind = .stop := by
  cases k with
  | nil =>
    obtain ⟨l', rest', e, hk, -⟩ := h
    cases e
    exact .inr (.inr hk)
  | cons p k =>
    cases p with
    | space =>
      have h : Spells naming more k true (.ok l :: rest) := h
      rcases h.layoutBefore with h | h
      · exact .inl h
      · exact .inr (.inr h)
    | punct c =>
      obtain ⟨l', rest', e, hl, -⟩ := h.punct
      cases e
      have hall : ∀ c ∈ closers, (String.ofList [c] == "(") = false :=
        List.all_iff_forall_prop.1 (by decide)
      exact .inr (.inl ⟨hl.kind, by rw [hl.isPunct]; exact hall c hk⟩)
    | _ => exact hk.elim

/-- No operator that comes next takes a term of priority `m` as its left operand without being weak
enough for it. -/
def Yields (ops : OpTable) (naming : Address → String) (more : List Char) (k : List Piece)
    (m : Nat) : Prop :=
  ∀ b l rest, Spells naming more k b (.ok l :: rest) → ∀ name, l.operatorName? = some name →
    ∀ d, ops.between? name = some d ∨ ops.behind? name = some d → m ≤ d.leftMax

theorem Yields.mono {ops : OpTable} {m' : Nat} (h : Yields ops naming more k m) (hle : m' ≤ m) :
    Yields ops naming more k m' :=
  fun b l rest hs name hn d hd => Nat.le_trans hle (h b l rest hs name hn d hd)

theorem operatorName?_punct {l : Lexeme} {s : String} (hl : l.Is .punct s b) :
    l.operatorName? = if s = "," ∨ s = "|" then some s else none := by
  rw [Lexeme.operatorName?, hl.kind, hl.lexeme, hl.isPunct, hl.isPunct]
  simp

theorem operatorName?_of_closes {l : Lexeme} (hc : l.closes = true) (hn : l.operatorName? = some name) :
    name = "," ∨ name = "|" := by
  unfold Lexeme.closes at hc
  unfold Lexeme.operatorName? at hn
  split at hc
  · next hk =>
    rw [hk] at hn
    cases hn
  · next hk =>
    rw [hk] at hn
    simp only at hn
    split at hn
    · next h =>
      cases hn
      simpa [Lexeme.isPunct, Token.isPunct, hk] using h
    · cases hn
  · cases hc

/-- Closing brackets are no operators, and the comma and the bar are weaker than arguments. -/
theorem yields_of_ends (hr : g.ops.Regular) (hk : Ends k) :
    Yields g.ops naming more k argumentMax := by
  intro b l rest hs name hn d hd
  have hsep := operatorName?_of_closes (hs.closes hk) hn
  rcases hd with hd | hd
  · have hweak := hr.separator_weak name d hsep hd
    have hle := d.priority_le_leftMax
    show 999 ≤ d.leftMax
    omega
  · rw [(hr.separator name hsep).2] at hd
    cases hd

theorem yields_of_none (h : ∀ b l rest, Spells naming more k b (.ok l :: rest) →
    l.operatorName? = none) (m : Nat) : Yields g.ops naming more k m := by
  intro b l rest hs name hn
  rw [h b l rest hs] at hn
  cases hn

theorem operatorName?_close {l : Lexeme} {rest : LexemeStream} (hc : c ∈ [')', ']', '}'])
    (h : Spells naming more (.punct c :: k) b (.ok l :: rest)) : l.operatorName? = none := by
  obtain ⟨l', rest', e, hl, -⟩ := h.punct
  cases e
  have hall : ∀ c ∈ [')', ']', '}'], ¬ (String.ofList [c] = "," ∨ String.ofList [c] = "|") :=
    List.all_iff_forall_prop.1 (by decide)
  rw [operatorName?_punct hl, if_neg (hall c hc)]

theorem operatorName?_stop {l : Lexeme} {rest : LexemeStream}
    (h : Spells naming more [] b (.ok l :: rest)) : l.operatorName? = none := by
  obtain ⟨l', rest', e, hk, -⟩ := h
  cases e
  rw [Lexeme.operatorName?, hk]

/-- An operator that fits where the term stands does not fit behind it. -/
theorem Yields.operator?_eq_none {l : Lexeme} {rest : LexemeStream} {q M : Nat}
    (hy : Yields g.ops naming more k m) (hs : Spells naming more k b (.ok l :: rest))
    (hM : ∀ n' x' d', g.ops.find? n' x' = some d' → m ≤ d'.leftMax → ¬ d'.priority ≤ M) :
    g.operator? q M l = none := by
  refine Grammar.operator?_eq_none fun name hn d hd => ?_
  have hle := hy b l rest hs name hn d hd
  have hM : ¬ d.priority ≤ M := by
    rcases hd with hd | hd
    · exact hM _ _ d hd hle
    · exact hM _ _ d hd hle
  simp [OpDef.fits, hM]

/-! ## What a term begins with -/

theorem isPunct_of_not_closes {l : Lexeme} (h : l.closes = false) {s : String}
    (hs : s ∈ [")", ",", "|", "]", "\x7d"]) : l.isPunct s = false := by
  by_contra hp
  rw [Bool.not_eq_false] at hp
  obtain ⟨hk, hlex⟩ : l.token.kind = .punct ∧ l.token.lexeme = s := by
    simpa [Lexeme.isPunct, Token.isPunct] using hp
  rw [Lexeme.closes, hk, hlex, decide_eq_true hs] at h
  cases h

/-- The first lexeme of a term closes nothing, and is a name only if the term begins with a name or a
minus sign. -/
theorem Spells.opens {q : Piece} (hq : q.opens = true) {l : Lexeme} {rest : LexemeStream}
    (h : Spells naming more (q :: ps) b (.ok l :: rest)) : l.closes = false ∧
      (l.token.kind = .name → q = .atom l.token.lexeme ∨ q = .functor l.token.lexeme ∨
        l.token.lexeme = "-") := by
  cases q with
  | space => cases hq
  | atom name =>
    by_cases h₁ : name = "[]"
    · subst h₁
      obtain ⟨l', rest', e, hl, -⟩ := h
      cases e
      refine ⟨by rw [Lexeme.closes, hl.kind, hl.lexeme]; rfl, fun hk => ?_⟩
      rw [hl.kind] at hk
      cases hk
    by_cases h₂ : name = "{}"
    · subst h₂
      obtain ⟨l', rest', e, hl, -⟩ := h
      cases e
      refine ⟨by rw [Lexeme.closes, hl.kind, hl.lexeme]; rfl, fun hk => ?_⟩
      rw [hl.kind] at hk
      cases hk
    obtain ⟨l', rest', e, hl, -⟩ := h.atom h₁ h₂
    cases e
    exact ⟨by rw [Lexeme.closes, hl.kind], fun _ => .inl (by rw [hl.lexeme])⟩
  | functor name =>
    obtain ⟨l', rest', e, hl, -⟩ := h.functor
    cases e
    exact ⟨by rw [Lexeme.closes, hl.kind], fun _ => .inr (.inl (by rw [hl.lexeme]))⟩
  | int n =>
    cases n with
    | ofNat n =>
      obtain ⟨l', rest', e, hl, -⟩ := h
      cases e
      refine ⟨by rw [Lexeme.closes, hl.kind], fun hk => ?_⟩
      rw [hl.kind] at hk
      cases hk
    | negSucc n =>
      obtain ⟨l', rest', e, hl, -⟩ := h
      cases e
      exact ⟨by rw [Lexeme.closes, hl.kind], fun _ => .inr (.inr hl.lexeme)⟩
  | var i =>
    obtain ⟨l', rest', e, hl, -⟩ := h
    cases e
    refine ⟨by rw [Lexeme.closes, hl.kind], fun hk => ?_⟩
    rw [hl.kind] at hk
    cases hk
  | punct c =>
    obtain ⟨l', rest', e, hl, -⟩ := h.punct
    cases e
    have hall : ∀ c ∈ openers, String.ofList [c] ∉ [")", ",", "|", "]", "\x7d"] :=
      List.all_iff_forall_prop.1 (by decide)
    refine ⟨?_, fun hk => ?_⟩
    · rw [Lexeme.closes, hl.kind, hl.lexeme]
      exact decide_eq_false (hall c (of_decide_eq_true hq))
    · rw [hl.kind] at hk
      cases hk

end PrologTerms
