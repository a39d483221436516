import PrologTerms.Proofs.Writing.Clear

/-!
# Atoms and operators are read back

From a place where an operand begins, the reading of a written term comes to the place behind it, with
an expression that means the term; unless the term is not clear, in which case a leaf is gained. What
stands behind the term matters only so far: it may stand there, and no operator in it takes the term
away.
-/

namespace PrologTerms

variable {g : Grammar} {naming : Address → String} {more : List Char} {F : List Frame}
  {M m : Nat} {k : List Piece} {b : Bool} {stream : LexemeStream} {C : Prop} {t : Tree} {p : Place}

/-- A name means the variable that has been given it. -/
abbrev Given (naming : Address → String) (x : String) (i : Address) : Prop := x = naming i

/-- The term `t`, of at most the priority `m`, has been read, and the pieces `k` are left. -/
def IsBehind (naming : Address → String) (more : List Char) (F : List Frame) (M : Nat) (t : Tree)
    (m : Nat) (k : List Piece) (s : ReadState) : Prop :=
  ∃ e q stream, s = ⟨F, .behind e q M, stream⟩ ∧ q ≤ m ∧ e.Denotes (Given naming) t ∧
    Spells naming more k false stream

theorem IsBehind.mono {m' : Nat} {s : ReadState} (h : IsBehind naming more F M t m k s)
    (hm : m ≤ m') : IsBehind naming more F M t m' k s := by
  obtain ⟨e, q, stream, rfl, hq, he, hs⟩ := h
  exact ⟨e, q, stream, rfl, Nat.le_trans hq hm, he, hs⟩

/-- A term may stand at the place `p`, where terms of the priority `M` may be read, in front of the
pieces `k`. -/
structure Stands (g : Grammar) (naming : Address → String) (more : List Char) (p : Place) (M : Nat)
    (k : List Piece) : Prop where
  /-- The term is not too weak to be read. -/
  le : p.max ≤ M
  /-- The pieces may come behind a term. -/
  follows : Follows k
  /-- Beside no operator, the pieces end an operand. -/
  ends : p.isOperand = false → Ends k
  /-- No operator in the pieces takes the term away. -/
  yields : Yields g.ops naming more k p.max

/-- The term is read back, wherever it stands. -/
def Tree.ReadBack (g : Grammar) (naming : Address → String) (more : List Char) (t : Tree) : Prop :=
  ∀ p, p ≠ .tail → ∀ k M F b stream, Stands g naming more p M k →
    Spells naming more (t.write g.ops p k) b stream →
    g.Leads (t.Clear g.ops) ⟨F, .operand M, stream⟩ (IsBehind naming more F M t p.max k)

/-! ## What stands behind brackets -/

theorem operator?_close {c : Char} {l : Lexeme} {rest : LexemeStream} {q : Nat}
    (hc : c ∈ [')', ']', '}']) (h : Spells naming more (.punct c :: k) b (.ok l :: rest)) :
    g.operator? q M l = none := by
  have hl := operatorName?_close hc h
  rw [Grammar.operator?, hl]

/-- Where an argument ends, no operator goes on. -/
theorem operator?_of_ends (hr : g.ops.Regular) (hk : Ends k) (hM : M ≤ argumentMax) {l : Lexeme}
    {rest : LexemeStream} {q : Nat} (h : Spells naming more k b (.ok l :: rest)) :
    g.operator? q M l = none := by
  refine Grammar.operator?_eq_none fun name hn d hd => ?_
  have hsep := operatorName?_of_closes (h.closes hk) hn
  have hM : M ≤ 999 := hM
  rcases hd with hd | hd
  · have hweak := hr.separator_weak name d hsep hd
    have hle : ¬ d.priority ≤ M := by omega
    simp [OpDef.fits, hle]
  · rw [(hr.separator name hsep).2] at hd
    cases hd

theorem stands_close {c : Char} (hc : c ∈ [')', ']', '}']) (hp : p.max ≤ M) :
    Stands g naming more p M (.punct c :: k) := by
  have hmem : c ∈ closers := List.all_iff_forall_prop.1 (by decide) c hc
  exact ⟨hp, hmem, fun _ => hmem, yields_of_none (fun b l rest h => operatorName?_close hc h) _⟩

theorem stands_argument (hr : g.ops.Regular) (hk : Ends k) :
    Stands g naming more .argument argumentMax k :=
  ⟨Nat.le_refl _, hk.follows, fun _ => hk, yields_of_ends hr hk⟩

/-- A bracket around a term is closed behind it. -/
theorem goes_close {bracket : Bracket} {c : Char} {s : ReadState} {u : Tree} {N : Nat} {P : Expr → Prop}
    (hc : c ∈ [')', ']', '}'])
    (hb : ∀ e l, l.Is .punct (String.ofList [c]) false → e.Denotes (Given naming) u →
      ∃ e', bracket.next? e l = some (.closed e') ∧ P e')
    (h : IsBehind naming more (.contents bracket M :: F) N u m (.punct c :: k) s) :
    ∃ e' stream, g.Goes s ⟨F, .behind e' 0 M, stream⟩ ∧ P e' ∧ Spells naming more k false stream := by
  obtain ⟨e, q, stream, rfl, -, he, hs⟩ := h
  obtain ⟨l, rest, rfl, hl, hrest⟩ := hs.punct
  obtain ⟨e', hnext, hP⟩ := hb e l hl he
  exact ⟨e', rest, Grammar.goes_closed (operator?_close hc hs) hnext, hP, hrest⟩

/-- A term in round brackets is read as the term. -/
theorem leads_bracketed (hr : g.ops.Regular) {needed : Bool} {inner : List Piece → List Piece}
    (hparen : needed = true → ∀ F b stream, Spells naming more (inner (.punct ')' :: k)) b stream →
      g.Leads C ⟨F, .operand OpTable.maxPriority, stream⟩
        (IsBehind naming more F OpTable.maxPriority t OpTable.maxPriority (.punct ')' :: k)))
    (hplain : needed = false → Spells naming more (inner k) b stream →
      g.Leads C ⟨F, .operand M, stream⟩ (IsBehind naming more F M t m k))
    (h : Spells naming more (Tree.bracketed needed inner k) b stream) :
    g.Leads C ⟨F, .operand M, stream⟩ (IsBehind naming more F M t m k) := by
  cases needed with
  | false => exact hplain rfl h
  | true =>
    obtain ⟨l, rest, rfl, hl, hrest⟩ := Spells.punct h
    have hopen : g.Goes ⟨F, .operand M, .ok l :: rest⟩
        ⟨.contents .paren M :: F, .operand OpTable.maxPriority, rest⟩ :=
      Grammar.goes_opened (Grammar.operand_paren hl rest)
    refine Grammar.Leads.of_goes hr hopen ((hparen rfl _ _ _ hrest).finish fun s hs => ?_)
    obtain ⟨e, stream', hgoes, he, hk⟩ := goes_close (by decide)
      (fun e l hl he => ⟨e, by simp [Bracket.next?, hl.isPunct], he⟩) hs
    exact ⟨_, hgoes, e, 0, stream', rfl, Nat.zero_le _, he, hk⟩

/-- An operator with its operands is read, with brackets around it where it is too weak for its
place. -/
theorem leads_operator (hr : g.ops.Regular) {name : String} {x : Fixity} {d : OpDef}
    (hd : g.ops.find? name x = some d) {inner : List Piece → List Piece}
    (hinner : ∀ M k F b stream, d.priority ≤ M → Follows k → Yields g.ops naming more k d.priority →
      Spells naming more (inner k) b stream →
      g.Leads C ⟨F, .operand M, stream⟩ (IsBehind naming more F M t d.priority k))
    (hp : Stands g naming more p M k)
    (h : Spells naming more (Tree.bracketed (p.max < d.priority) inner k) b stream) :
    g.Leads C ⟨F, .operand M, stream⟩ (IsBehind naming more F M t p.max k) := by
  refine leads_bracketed hr ?_ ?_ h
  · intro _ F b stream hs
    have hmax := hr.le_max name x d hd
    have hclose : Stands g naming more .whole OpTable.maxPriority (.punct ')' :: k) :=
      stands_close (by decide) (Nat.le_refl _)
    refine (hinner _ _ F b stream hmax hclose.follows (hclose.yields.mono hmax) hs).finish ?_
    exact fun s hs => ⟨s, .refl s, hs.mono hmax⟩
  · intro hn hs
    have hle : d.priority ≤ p.max := by
      rw [decide_eq_false_iff_not] at hn
      omega
    have hM : d.priority ≤ M := Nat.le_trans hle hp.le
    refine (hinner M k F b stream hM hp.follows (hp.yields.mono hle) hs).finish ?_
    exact fun s hs => ⟨s, .refl s, hs.mono hle⟩

/-! ## Single lexemes -/

variable {name : String} {d : OpDef} {a : Tree}

theorem isBehind_of_denotes {e : Expr} {rest : LexemeStream} (he : e.Denotes (Given naming) t)
    (hs : Spells naming more k false rest) :
    IsBehind naming more F M t m k ⟨F, .behind e 0 M, rest⟩ :=
  ⟨e, 0, rest, rfl, Nat.zero_le _, he, hs⟩

theorem readBack_var (i : Address) : (Tree.var i).ReadBack g naming more := by
  intro p hp k M F b stream _ hs
  rw [Tree.write_var hp] at hs
  obtain ⟨l, rest, rfl, hl, hrest⟩ := hs
  have hgoes : g.Goes ⟨F, .operand M, .ok l :: rest⟩ ⟨F, .behind (.var (naming i)) 0 M, rest⟩ :=
    Grammar.goes_complete (Grammar.operand_var hl rest)
  exact Grammar.leads_of_goes rfl hgoes (isBehind_of_denotes ⟨i, rfl, rfl⟩ hrest)

theorem readBack_int {n : Int} (hn : fitsWord n = true) : (Tree.int n).ReadBack g naming more := by
  intro p hp k M F b stream _ hs
  rw [Tree.write_int hp] at hs
  cases n with
  | ofNat n =>
    obtain ⟨l, rest, rfl, hl, hrest⟩ := hs
    have hgoes : g.Goes ⟨F, .operand M, .ok l :: rest⟩ ⟨F, .behind (.int n) 0 M, rest⟩ :=
      Grammar.goes_complete (Grammar.operand_natural hl hn rest)
    exact Grammar.leads_of_goes rfl hgoes (isBehind_of_denotes rfl hrest)
  | negSucc n =>
    obtain ⟨l, rest, rfl, hl, l', rest', rfl, hl', hrest⟩ := hs
    have hgoes : g.Goes ⟨F, .operand M, .ok l :: .ok l' :: rest'⟩
        ⟨F, .behind (.int (.negSucc n)) 0 M, rest'⟩ :=
      Grammar.goes_complete (Grammar.operand_negative hl hl' hn rest')
    exact Grammar.leads_of_goes rfl hgoes (isBehind_of_denotes rfl hrest)

/-- A name that is no operator, or where the operand ends behind it, is an atom. -/
theorem plainName_atom {rest : LexemeStream}
    (h : g.ops.before? name = none ∨ g.operandFollows rest = false) :
    g.plainName M name rest = .complete (.atom name) rest := by
  unfold Grammar.plainName
  rcases h with h | h
  · rw [h]
  · split
    · rw [if_neg (by simp [h])]
    · rfl

theorem operandFollows_of_closes {l : Lexeme} (hc : l.closes = true) (rest : LexemeStream) :
    g.operandFollows (.ok l :: rest) = false := by
  show (!g.endsOperand l) = false
  rw [g.endsOperand_of_closes hc]
  rfl

/-- An atom is read back if it is no operator, or if nothing that could be its operand follows. -/
theorem leads_atom (hk : Follows k) (h : g.ops.isOp name = false ∨ Ends k)
    (hs : Spells naming more (.atom name :: k) b stream) :
    g.Leads ((Tree.atom name).Clear g.ops) ⟨F, .operand M, stream⟩
      (IsBehind naming more F M (.atom name) m k) := by
  by_cases h₁ : name = "[]"
  · subst h₁
    obtain ⟨l, rest, rfl, hl, l', rest', rfl, hl', hrest⟩ := hs
    have hgoes : g.Goes ⟨F, .operand M, .ok l :: .ok l' :: rest'⟩ ⟨F, .behind .nil 0 M, rest'⟩ :=
      Grammar.goes_complete (Grammar.operand_nil hl hl' rest')
    exact Grammar.leads_of_goes rfl hgoes (isBehind_of_denotes rfl hrest)
  by_cases h₂ : name = "{}"
  · subst h₂
    obtain ⟨l, rest, rfl, hl, l', rest', rfl, hl', hrest⟩ := hs
    have hgoes : g.Goes ⟨F, .operand M, .ok l :: .ok l' :: rest'⟩
        ⟨F, .behind (.atom "{}") 0 M, rest'⟩ :=
      Grammar.goes_complete (Grammar.operand_braces hl hl' rest')
    exact Grammar.leads_of_goes rfl hgoes (isBehind_of_denotes rfl hrest)
  obtain ⟨l, rest, rfl, hl, hrest⟩ := hs.atom h₁ h₂
  obtain ⟨l', rest', rfl⟩ := hrest.exists_cons
  have hatom : g.operand M (.ok l :: .ok l' :: rest') = .complete (.atom name) (.ok l' :: rest') := by
    rw [Grammar.operand_plain hl (hrest.plain hk)]
    rcases h with h | h
    · exact plainName_atom (.inl (OpTable.isOp_eq_false h .before))
    · exact plainName_atom (.inr (operandFollows_of_closes (hrest.closes h) rest'))
  exact Grammar.leads_of_goes rfl (Grammar.goes_complete hatom) (isBehind_of_denotes rfl hrest)

theorem readBack_atom (hr : g.ops.Regular) (name : String) :
    (Tree.atom name).ReadBack g naming more := by
  intro p hp k M F b stream hstand hs
  rw [Tree.write_atom hp] at hs
  refine leads_bracketed hr ?_ ?_ hs
  · intro _ F b stream hs
    have hclose : Ends (.punct ')' :: k) := by simp [Ends, closers]
    exact leads_atom hclose.follows (.inr hclose) hs
  · intro hneeded hs
    refine leads_atom hstand.follows ?_ hs
    cases hpo : p.isOperand with
    | false => exact .inr (hstand.ends hpo)
    | true =>
      rw [hpo, Bool.true_and] at hneeded
      exact .inl hneeded

/-! ## Operators -/

/-- An operand follows a prefix operator, unless the operand begins with a functor that is no
operand. -/
theorem operandFollows_iff (hr : g.ops.Regular) {q : Piece} {ps : List Piece} {l : Lexeme}
    {rest : LexemeStream} (hq : a.BeginsWith g.ops (.operand m) q)
    (hs : Spells naming more (q :: ps) b (.ok l :: rest)) :
    g.operandFollows (.ok l :: rest) = true ↔ ∀ f, q = .functor f → g.ops.isTrailing f = false := by
  obtain ⟨hclose, hname⟩ := hs.opens hq.1
  have hfollows : g.operandFollows (.ok l :: rest) = !g.endsOperand l := rfl
  by_cases hf : ∃ f, q = .functor f
  · obtain ⟨f, rfl⟩ := hf
    obtain ⟨l', rest', e, hl, -⟩ := hs.functor
    cases e
    have hends : g.endsOperand l = g.ops.isTrailing f := by
      simp only [Grammar.endsOperand, hl.kind, hl.lexeme, OpTable.isTrailing]
    rw [hfollows, hends]
    simp
  · have hends : g.endsOperand l = false := by
      unfold Lexeme.closes at hclose
      unfold Grammar.endsOperand
      split
      · next hk => rw [hk] at hclose; cases hclose
      · next hk => rw [hk] at hclose; simpa using hclose
      · next hk =>
        show g.ops.isTrailing l.token.lexeme = false
        rcases hname hk with e | e | e
        · exact hq.2.1 rfl _ e
        · exact absurd ⟨_, e⟩ hf
        · rw [e]
          exact hr.minus
      · rfl
    rw [hfollows, hends]
    exact iff_of_true rfl fun f e => absurd ⟨f, e⟩ hf

/-- A prefix operator that is read as an atom is a leaf too many. -/
theorem gains_atom {l l' : Lexeme} {rest : LexemeStream} (hl : l.Is .name name b)
    (hop : g.ops.isOp name = true) (hcount : leafCount name = 1) (hc : l'.closes = false)
    (h : g.operand M (.ok l :: .ok l' :: rest) = .complete (.atom name) (.ok l' :: rest)) :
    g.Gains ⟨F, .operand M, .ok l :: .ok l' :: rest⟩ := by
  refine ⟨_, Grammar.goes_complete h, ?_⟩
  have hsure : surelyAtom g.ops true l.token.lexeme (.ok l' :: rest) = false := by
    rw [hl.lexeme, surelyAtom, if_pos hop, hc, Bool.and_false]
  have hbefore : sureLeaves g.ops true (.ok l :: .ok l' :: rest) =
      sureLeaves g.ops false (.ok l' :: rest) := sureLeaves_of_not_surelyAtom hl.kind hsure
  have hbehind : (Expr.atom name).leaves = 1 := hcount
  show (F.map Frame.leaves).sum + sureLeaves g.ops true (.ok l :: .ok l' :: rest) <
    (F.map Frame.leaves).sum + ((Expr.atom name).leaves + sureLeaves g.ops false (.ok l' :: rest))
  rw [hbefore, hbehind]
  omega

theorem readBack_before (hr : g.ops.Regular) (hname : name ≠ "{}")
    (hd : g.ops.before? name = some d) (hw : a.Writable) (ih : a.ReadBack g naming more) :
    (Tree.compound name [a]).ReadBack g naming more := by
  intro p hp k M F b stream hstand hs
  rw [Tree.write_before hp hname hd] at hs
  refine leads_operator hr hd ?_ hstand hs
  intro M k F b stream hM hk hy hs
  have hop : g.ops.isOp name = true := OpTable.isOp_iff.2 ⟨_, d, hd⟩
  have hnil : name ≠ "[]" := by
    rintro rfl
    rw [hr.isOp_brackets (.inl rfl)] at hop
    cases hop
  obtain ⟨l, rest, rfl, hl, hrest⟩ := hs.atom hnil hname
  have hrest : Spells naming more (a.write g.ops (.operand d.rightMax) k) true rest := hrest
  obtain ⟨l', rest', rfl⟩ := hrest.exists_cons
  obtain ⟨q, hq⟩ : ∃ q, a.BeginsWith g.ops (.operand d.rightMax) q :=
    Tree.exists_beginsWith hw.proper _ (by simp)
  obtain ⟨ps, hps⟩ := hq.2.2 k
  have hbegins : Spells naming more (q :: ps) true (.ok l' :: rest') := hps ▸ hrest
  have hplain : g.operand M (.ok l :: .ok l' :: rest') = g.plainName M name (.ok l' :: rest') := by
    refine Grammar.operand_plain hl ?_ rest'
    rcases hrest.layoutBefore with h | h
    · exact .inl h
    · exact .inr (.inr h)
  have hpart := Tree.clearPart_iff hname hd hq
  have hfollows := operandFollows_iff hr hq hbegins
  have hclear : (Tree.compound name [a]).Clear g.ops ↔
      Tree.clearPart g.ops (.compound name [a]) = true ∧ a.Clear g.ops := by
    rw [Tree.clear_compound]
    simp
  by_cases hc : Tree.clearPart g.ops (.compound name [a]) = true
  · have hopened : g.operand M (.ok l :: .ok l' :: rest') =
        .opened (.onlyOperand name d.priority M) d.rightMax (.ok l' :: rest') := by
      rw [hplain, Grammar.plainName, hd]
      exact if_pos ⟨hM, hfollows.2 (hpart.1 hc)⟩
    have hstand' : Stands g naming more (.operand d.rightMax) d.rightMax k :=
      ⟨Nat.le_refl _, hk, by simp [Place.isOperand], hy.mono d.rightMax_le⟩
    have hlead := ih _ (by simp) k _ (.onlyOperand name d.priority M :: F) true _ hstand' hrest
    refine Grammar.Leads.of_goes hr (Grammar.goes_opened hopened) ?_
    refine (hlead.congr (hclear.trans (and_iff_right hc))).finish fun s hs => ?_
    obtain ⟨e, q', stream', rfl, -, he, hk'⟩ := hs
    obtain ⟨l'', rest'', rfl⟩ := hk'.exists_cons
    -- what comes behind may take the whole term, but not its operand
    have hnone : g.operator? q' d.rightMax l'' = none :=
      hy.operator?_eq_none hk' fun n' x' d' hd' hle => hr.not_fits hd hd' hle
    refine ⟨_, Grammar.goes_onlyOperand hnone, _, d.priority, _, rfl, Nat.le_refl _, ?_, hk'⟩
    exact ⟨[], [a], rfl, rfl, Expr.denotesAll_one he⟩
  · refine ⟨fun h => absurd (hclear.1 h).1 hc, fun _ => ?_⟩
    have hnot : g.operandFollows (.ok l' :: rest') = false := by
      rw [← Bool.not_eq_true, hfollows, ← hpart]
      exact hc
    refine gains_atom hl hop ?_ (hbegins.opens hq.1).1 (hplain.trans (plainName_atom (.inr hnot)))
    exact if_neg (not_or.2 ⟨hnil, hname⟩)

/-- The name of an operator behind an operand is read as the operator. -/
theorem Spells.operator (hr : g.ops.Regular) {x : Fixity} (hd : g.ops.find? name x = some d)
    {l : Lexeme} {rest : LexemeStream}
    (hs : Spells naming more (.space :: .atom name :: k) b (.ok l :: rest)) :
    l.operatorName? = some name ∧ l.operatorTerm = name ∧ Spells naming more k false rest := by
  have hbrackets := hr.brackets x
  have hnil : name ≠ "[]" := by
    rintro rfl
    rw [hbrackets.1] at hd
    cases hd
  have hbraces : name ≠ "{}" := by
    rintro rfl
    rw [hbrackets.2] at hd
    cases hd
  obtain ⟨l', rest', e, hl, hrest⟩ := Spells.atom (k := k) (b := true) hnil hbraces hs
  cases e
  refine ⟨?_, ?_, hrest⟩
  · rw [Lexeme.operatorName?, hl.kind, hl.lexeme]
  · rw [Lexeme.operatorTerm, hl.isPunct_eq_false (by decide), if_neg (by decide), hl.lexeme]

/-- An operator between its operands is read as the operator. -/
theorem Spells.betweenOperands (hr : g.ops.Regular) {x : Fixity} (hd : g.ops.find? name x = some d)
    {l : Lexeme} {rest : LexemeStream}
    (hs : Spells naming more (Tree.betweenOperands name k) b (.ok l :: rest)) :
    l.operatorName? = some name ∧ l.operatorTerm = name ∧ Spells naming more k true rest := by
  unfold Tree.betweenOperands at hs
  split at hs
  · next hcomma =>
    subst hcomma
    obtain ⟨l', rest', e, hl, hrest⟩ := Spells.punct (k := .space :: k) hs
    cases e
    refine ⟨by rw [operatorName?_punct hl]; rfl, ?_, hrest⟩
    rw [Lexeme.operatorTerm, hl.isPunct, if_neg (by decide), hl.lexeme]
  · obtain ⟨hn, hterm, hrest⟩ := Spells.operator (k := .space :: k) hr hd hs
    exact ⟨hn, hterm, hrest⟩

/-- The operator that a term is the left operand of does not take it away from itself. -/
theorem yields_of_operator {ps : List Piece} (h : ∀ b l rest, Spells naming more ps b (.ok l :: rest) →
    l.operatorName? = some name)
    (hd : ∀ d', g.ops.between? name = some d' ∨ g.ops.behind? name = some d' → d' = d) :
    Yields g.ops naming more ps d.leftMax := by
  intro b l rest hs name' hn d' hd'
  rw [h b l rest hs] at hn
  cases hn
  rw [hd d' hd']

theorem readBack_behind (hr : g.ops.Regular) (hname : name ≠ "{}")
    (hb : g.ops.before? name = none) (hd : g.ops.behind? name = some d)
    (ih : a.ReadBack g naming more) : (Tree.compound name [a]).ReadBack g naming more := by
  intro p hp k M F b stream hstand hs
  rw [Tree.write_behind hp hname hb hd] at hs
  refine leads_operator hr hd ?_ hstand hs
  intro M k F b stream hM hk hy hs
  have hbetween : g.ops.between? name = none := by
    rcases hr.oneSided name with h | h
    · exact h
    · rw [h] at hd
      cases hd
  have hyields : Yields g.ops naming more (.space :: .atom name :: k) d.leftMax := by
    refine yields_of_operator (fun b l rest hs => (hs.operator hr hd).1) fun d' hd' => ?_
    rw [hbetween, hd] at hd'
    rcases hd' with e | e
    · cases e
    · exact (Option.some.inj e).symm
  have hle := d.leftMax_le
  have hstand' : Stands g naming more (.operand d.leftMax) M (.space :: .atom name :: k) :=
    ⟨Nat.le_trans hle hM, trivial, by simp [Place.isOperand], hyields⟩
  have hlead := ih _ (by simp) _ M F b stream hstand' hs
  refine (hlead.congr (Tree.clear_one (.inr hb))).finish fun s hs => ?_
  obtain ⟨e, q, stream', rfl, hq, he, hk'⟩ := hs
  obtain ⟨l, rest, rfl⟩ := hk'.exists_cons
  obtain ⟨hn, hterm, hrest⟩ := hk'.operator hr hd
  have hnot : d.stands .between = false := by
    have hstands := (OpTable.mem_of_find? hd).2
    unfold OpDef.stands at hstands ⊢
    rw [eq_of_beq hstands]
    rfl
  have hgoes : g.Goes ⟨F, .behind e q M, .ok l :: rest⟩
      ⟨F, .behind (.compound [e] l.operatorTerm []) d.priority M, rest⟩ :=
    Grammar.goes_behind (Grammar.operator?_behind hn hbetween hd hM hq) hnot
  rw [hterm] at hgoes
  refine ⟨_, hgoes, _, d.priority, _, rfl, Nat.le_refl _, ?_, hrest⟩
  exact ⟨[a], [], rfl, Expr.denotesAll_one he, rfl⟩

theorem readBack_between {a' : Tree} (hr : g.ops.Regular) (hname : name ≠ ".")
    (hd : g.ops.between? name = some d) (ih : a.ReadBack g naming more)
    (ih' : a'.ReadBack g naming more) : (Tree.compound name [a, a']).ReadBack g naming more := by
  intro p hp k M F b stream hstand hs
  rw [Tree.write_between hp hname hd] at hs
  refine leads_operator hr hd ?_ hstand hs
  intro M k F b stream hM hk hy hs
  have hbehind : g.ops.behind? name = none := by
    rcases hr.oneSided name with h | h
    · rw [h] at hd
      cases hd
    · exact h
  have hyields : Yields g.ops naming more
      (Tree.betweenOperands name (a'.write g.ops (.operand d.rightMax) k)) d.leftMax := by
    refine yields_of_operator (fun b l rest hs => (hs.betweenOperands hr hd).1) fun d' hd' => ?_
    rw [hbehind, hd] at hd'
    rcases hd' with e | e
    · exact (Option.some.inj e).symm
    · cases e
  have hle := d.leftMax_le
  have hle' := d.rightMax_le
  have hfollows : Follows (Tree.betweenOperands name (a'.write g.ops (.operand d.rightMax) k)) := by
    unfold Tree.betweenOperands
    split
    · simp [Tree.comma, Follows, closers]
    · trivial
  have hlead := ih (.operand d.leftMax) (by simp) _ M F b stream
    ⟨Nat.le_trans hle hM, hfollows, by simp [Place.isOperand], hyields⟩ hs
  refine (hlead.and_then hr fun s hs => ?_).congr Tree.clear_two
  obtain ⟨e, q, stream', rfl, hq, he, hs⟩ := hs
  obtain ⟨l, rest, rfl⟩ := hs.exists_cons
  obtain ⟨hn, hterm, hrest⟩ := hs.betweenOperands hr hd
  have hgoes : g.Goes ⟨F, .behind e q M, .ok l :: rest⟩
      ⟨.rightOperand e l.operatorTerm d.priority M :: F, .operand d.rightMax, rest⟩ :=
    Grammar.goes_between (Grammar.operator?_between hn hd hM hq) (OpTable.mem_of_find? hd).2
  rw [hterm] at hgoes
  have hstand' : Stands g naming more (.operand d.rightMax) d.rightMax k :=
    ⟨Nat.le_refl _, hk, by simp [Place.isOperand], hy.mono hle'⟩
  refine (Grammar.Leads.of_goes hr hgoes (ih' _ (by simp) k _ _ true rest hstand' hrest)).finish ?_
  rintro s ⟨e', q', stream', rfl, -, he', hk'⟩
  obtain ⟨l', rest', rfl⟩ := hk'.exists_cons
  have hnone : g.operator? q' d.rightMax l' = none :=
    hy.operator?_eq_none hk' fun n' x' d' hd' hle => hr.not_fits hd hd' hle
  refine ⟨_, Grammar.goes_rightOperand hnone, _, d.priority, _, rfl, Nat.le_refl _, ?_, hk'⟩
  exact ⟨[a], [a'], rfl, Expr.denotesAll_one he, Expr.denotesAll_one he'⟩

end PrologTerms
