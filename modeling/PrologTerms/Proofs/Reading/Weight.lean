import PrologTerms.Proofs.Reading.Expr
import PrologTerms.Proofs.Reading.Meaning
import PrologTerms.Proofs.Reading.Step

/-!
# Leaves never get lost

Some lexemes are sure to become leaves of the term, however the rest of the text is read: variables,
numbers, and names that stand where they can be nothing but atoms. Counted together with the leaves of
what is complete, they never become fewer while a term is read.
-/

namespace PrologTerms

namespace Expr

theorem leavesAll_eq_sum (es : List Expr) : leavesAll es = (es.map leaves).sum := by
  induction es with
  | nil => rfl
  | cons e es ih => rw [leavesAll, ih, List.map_cons, List.sum_cons]

theorem leavesAll_reverse (es : List Expr) : leavesAll es.reverse = leavesAll es := by
  rw [leavesAll_eq_sum, leavesAll_eq_sum, List.map_reverse, List.sum_reverse]

theorem leaves_call (name : String) (es : List Expr) : (call name es).leaves = leavesAll es := by
  rw [call, leaves, leavesAll, Nat.zero_add]

theorem leaves_list (es : List Expr) (tail : Expr) :
    (list es tail).leaves = leavesAll es + tail.leaves := by
  induction es with
  | nil => exact (Nat.zero_add _).symm
  | cons e es ih =>
    have hcons : (list (e :: es) tail).leaves = e.leaves + (list es tail).leaves :=
      leaves_call "." [e, list es tail]
    rw [hcons, ih, leavesAll, Nat.add_assoc]

end Expr

/-- Does a name become an atom in any case? An operator does where an operand begins, if none follows;
another name does unless it is a functor or the sign of a number. -/
def surelyAtom (ops : OpTable) (atStart : Bool) (name : String) : LexemeStream → Bool
  | .ok l :: _ =>
    if ops.isOp name then atStart && l.closes
    else l.layoutBefore || !(l.isPunct "(" || (name == "-" && l.token.kind == .natural))
  | _ => false

/-- The number of lexemes that become leaves in any case, up to the first full stop or error. An
operand begins at the first lexeme, if `atStart` says so, and behind opening brackets, commas and
bars. -/
def sureLeaves (ops : OpTable) : (atStart : Bool) → LexemeStream → Nat
  | _, [] => 0
  | _, .error _ :: _ => 0
  | atStart, .ok l :: rest =>
    match l.token.kind with
    | .var => 1 + sureLeaves ops false rest
    | .natural => 1 + sureLeaves ops false rest
    | .name =>
      (if surelyAtom ops atStart l.token.lexeme rest then leafCount l.token.lexeme else 0) +
        sureLeaves ops false rest
    | .punct => sureLeaves ops (l.token.lexeme ∈ ["(", "[", "\x7b", ",", "|"]) rest
    | .stop => 0
    | _ => sureLeaves ops false rest

/-- The leaves of what is complete in a frame. -/
def Frame.leaves : Frame → Nat
  | .rightOperand left _ _ _ => left.leaves
  | .onlyOperand _ _ _ => 0
  | .contents b _ => Expr.leavesAll b.exprs

/-- The leaves of the expression that was read last, and those that are sure to come. -/
def Focus.leaves (ops : OpTable) (stream : LexemeStream) : Focus → Nat
  | .operand _ => sureLeaves ops true stream
  | .behind e _ _ => e.leaves + sureLeaves ops false stream

/-- The leaves of all that is complete, and those that are sure to come. -/
def ReadState.leaves (ops : OpTable) (s : ReadState) : Nat :=
  (s.frames.map Frame.leaves).sum + s.focus.leaves ops s.stream

/-- The operand keeps at least `n` leaves, as far as it is read or sure to come. -/
def Operand.Keeps (ops : OpTable) (n : Nat) : Operand → Prop
  | .complete e rest => n ≤ e.leaves + sureLeaves ops false rest
  | .opened f _ rest => n ≤ f.leaves + sureLeaves ops true rest
  | .failed _ _ => True

/-- What a step leads to keeps at least `n` leaves. -/
def Progress.Keeps (ops : OpTable) (n : Nat) : Progress ReadState ReadResult → Prop
  | .more s => n ≤ s.leaves ops
  | .done r => ∀ e, r.value = .ok e → n ≤ e.leaves + sureLeaves ops false r.rest

variable {ops : OpTable} {g : Grammar} {l : Lexeme} {rest stream : LexemeStream} {M : Nat}

theorem sureLeaves_le (ops : OpTable) (b : Bool) (stream : LexemeStream) :
    sureLeaves ops false stream ≤ sureLeaves ops b stream := by
  cases b with
  | false => exact Nat.le_refl _
  | true =>
    match stream with
    | [] => exact Nat.le_refl _
    | .error _ :: _ => exact Nat.le_refl _
    | .ok l :: rest =>
      unfold sureLeaves
      split
      case h_3 =>
        refine Nat.add_le_add_right ?_ _
        by_cases h : surelyAtom ops false l.token.lexeme rest = true
        · have h' : surelyAtom ops true l.token.lexeme rest = true := by
            unfold surelyAtom at h ⊢
            split at h
            · split at h
              · cases h
              · next hop => rwa [if_neg hop]
            · cases h
          rw [if_pos h, if_pos h']
        · rw [if_neg h]
          exact Nat.zero_le _
      all_goals exact Nat.le_refl _

theorem sureLeaves_le_true (ops : OpTable) (b : Bool) (stream : LexemeStream) :
    sureLeaves ops b stream ≤ sureLeaves ops true stream := by
  cases b with
  | false => exact sureLeaves_le ops true stream
  | true => exact Nat.le_refl _

/-! ## Where an operand begins -/

theorem keeps_plainName {name : String} {n : Nat}
    (hatom : n ≤ leafCount name + sureLeaves g.ops false rest)
    (hop : g.ops.isOp name = true → g.operandFollows rest = true →
      n ≤ sureLeaves g.ops false rest) :
    (g.plainName M name rest).Keeps g.ops n := by
  unfold Grammar.plainName
  split
  · next d hd =>
    split
    · next h =>
      have hle := hop (OpTable.isOp_iff.2 ⟨_, d, hd⟩) h.2
      exact Nat.le_trans hle (Nat.le_trans (sureLeaves_le _ true _) (Nat.le_add_left _ _))
    · exact hatom
  · exact hatom

theorem sureLeaves_name (b : Bool) (h : l.token.kind = .name) (rest : LexemeStream) :
    sureLeaves ops b (.ok l :: rest) =
      (if surelyAtom ops b l.token.lexeme rest then leafCount l.token.lexeme else 0) +
        sureLeaves ops false rest := by
  rw [sureLeaves, h]

theorem sureLeaves_punct (b : Bool) (h : l.token.kind = .punct) (rest : LexemeStream) :
    sureLeaves ops b (.ok l :: rest) =
      sureLeaves ops (l.token.lexeme ∈ ["(", "[", "\x7b", ",", "|"]) rest := by
  rw [sureLeaves, h]

theorem sureLeaves_name_le (b : Bool) (h : l.token.kind = .name) (rest : LexemeStream) :
    sureLeaves ops b (.ok l :: rest) ≤ leafCount l.token.lexeme + sureLeaves ops false rest := by
  rw [sureLeaves_name b h]
  refine Nat.add_le_add_right ?_ _
  split
  · exact Nat.le_refl _
  · exact Nat.zero_le _

/-- A name that is not sure to be an atom counts for nothing. -/
theorem sureLeaves_of_not_surelyAtom {b : Bool} (h : l.token.kind = .name)
    (ha : surelyAtom ops b l.token.lexeme rest = false) :
    sureLeaves ops b (.ok l :: rest) = sureLeaves ops false rest := by
  rw [sureLeaves_name b h, ha, if_neg Bool.false_ne_true, Nat.zero_add]

theorem surelyAtom_of_operandFollows {b : Bool} {name : String} (hop : g.ops.isOp name = true)
    (h : g.operandFollows rest = true) : surelyAtom g.ops b name rest = false := by
  unfold Grammar.operandFollows at h
  split at h
  · next l rest =>
    have hc : l.closes = false := by
      by_contra hc
      rw [Bool.not_eq_false] at hc
      rw [g.endsOperand_of_closes hc] at h
      cases h
    rw [surelyAtom, if_pos hop, hc, Bool.and_false]
  · cases h

theorem leaves_ofInteger {t : Token} {negative : Bool} {n : Nat}
    (h : n ≤ 1 + sureLeaves ops false rest) : (Operand.ofInteger t negative rest).Keeps ops n := by
  unfold Operand.ofInteger
  split
  · exact h
  · trivial

theorem keeps_name (hl : l.token.kind = .name) (rest : LexemeStream) :
    (g.name M l.token.lexeme rest).Keeps g.ops (sureLeaves g.ops true (.ok l :: rest)) := by
  have hatom : sureLeaves g.ops true (.ok l :: rest) ≤ leafCount l.token.lexeme +
      sureLeaves g.ops false rest := sureLeaves_name_le true hl rest
  have hplain : (g.plainName M l.token.lexeme rest).Keeps g.ops
      (sureLeaves g.ops true (.ok l :: rest)) := by
    refine keeps_plainName hatom fun hop hf => ?_
    exact Nat.le_of_eq (sureLeaves_of_not_surelyAtom hl (surelyAtom_of_operandFollows hop hf))
  unfold Grammar.name
  split
  · exact hplain
  · trivial
  · next l' rest =>
    split
    · exact hplain
    · next hb =>
      rw [Bool.not_eq_true] at hb
      split
      · next hopen =>
        -- the name is a functor
        obtain ⟨hk, hlex⟩ : l'.token.kind = .punct ∧ l'.token.lexeme = "(" := by
          simpa [Lexeme.isPunct, Token.isPunct] using hopen
        have ha : surelyAtom g.ops true l.token.lexeme (.ok l' :: rest) = false := by
          rw [surelyAtom, hb, hopen, Lexeme.closes, hk]
          simp [hlex]
        rw [sureLeaves_of_not_surelyAtom hl ha, sureLeaves_punct false hk, hlex]
        exact Nat.le_add_left _ _
      · split
        · next hneg =>
          -- the name is the sign of a number
          have ha : surelyAtom g.ops true l.token.lexeme (.ok l' :: rest) = false := by
            rw [surelyAtom, hb, Lexeme.closes, hneg.1, hneg.2]
            simp
          rw [sureLeaves_of_not_surelyAtom hl ha]
          refine leaves_ofInteger (Nat.le_of_eq ?_)
          rw [sureLeaves, hneg.2]
        · split
          · trivial
          · exact hplain

theorem keeps_ofBracket {close : String} {empty : Expr} {b : Bracket} {max inner : Nat}
    (hclose : close ∉ ["(", "[", "\x7b", ",", "|"]) (rest : LexemeStream) :
    (Operand.ofBracket close empty (.contents b max) inner rest).Keeps ops
      (sureLeaves ops true rest) := by
  have hopened : ∀ rest, (Operand.opened (.contents b max) inner rest).Keeps ops
      (sureLeaves ops true rest) := fun rest => Nat.le_add_left _ _
  unfold Operand.ofBracket
  split
  · exact hopened []
  · trivial
  · next l rest =>
    split
    · next h =>
      obtain ⟨hk, hlex⟩ : l.token.kind = .punct ∧ l.token.lexeme = close := by
        simpa [Lexeme.isPunct, Token.isPunct] using h
      rw [sureLeaves_punct true hk, hlex, decide_eq_false hclose]
      exact Nat.le_add_left _ _
    · exact hopened _

/-- The beginning of an operand keeps its leaves. -/
theorem keeps_operand (M : Nat) (stream : LexemeStream) :
    (g.operand M stream).Keeps g.ops (sureLeaves g.ops true stream) := by
  unfold Grammar.operand
  split
  · trivial
  · trivial
  · next l rest =>
    split
    · next hk =>
      refine leaves_ofInteger (Nat.le_of_eq ?_)
      rw [sureLeaves, hk]
    · trivial
    · next hk =>
      refine Nat.le_of_eq ?_
      rw [sureLeaves, hk]
      rfl
    · next hk =>
      refine Nat.le_trans (Nat.le_of_eq ?_) (Nat.le_add_left _ _)
      rw [sureLeaves, hk]
    · next hk => exact keeps_name hk rest
    · next hk =>
      have hpunct : ∀ s, l.isPunct s = true → l.token.lexeme = s := by
        intro s h
        simpa [Lexeme.isPunct, Token.isPunct, hk] using h
      rw [sureLeaves_punct true hk]
      split
      · next h =>
        rw [hpunct _ h]
        exact Nat.le_add_left _ _
      · split
        · next h =>
          rw [hpunct _ h]
          exact keeps_ofBracket (by decide) rest
        · split
          · next h =>
            rw [hpunct _ h]
            exact keeps_ofBracket (by decide) rest
          · trivial
    · trivial
    · trivial

/-! ## Behind an operand -/

variable {e : Expr} {F : List Frame} {n : Nat}

theorem leaves_next? {b : Bracket} {r : BracketStep} (h : b.next? e l = some r) :
    l.token.kind = .punct ∧ match r with
      | .closed e' => l.token.lexeme ∉ ["(", "[", "\x7b", ",", "|"] ∧
          e'.leaves = Expr.leavesAll b.exprs + e.leaves
      | .again b' => Expr.leavesAll b'.exprs = Expr.leavesAll b.exprs + e.leaves := by
  have hpunct : ∀ s, l.isPunct s = true → l.token.kind = .punct ∧ l.token.lexeme = s := by
    intro s hs
    simpa [Lexeme.isPunct, Token.isPunct] using hs
  have hrev : ∀ es, Expr.leavesAll (e :: es).reverse = Expr.leavesAll es + e.leaves := by
    intro es
    rw [Expr.leavesAll_reverse, Expr.leavesAll, Nat.add_comm]
  have hcons : ∀ es, Expr.leavesAll (e :: es) = Expr.leavesAll es + e.leaves :=
    fun es => Nat.add_comm _ _
  cases Bracket.next_spec h with
  | paren hl =>
    obtain ⟨hk, hlex⟩ := hpunct _ hl
    exact ⟨hk, by rw [hlex]; decide, (Nat.zero_add _).symm⟩
  | curly hl =>
    obtain ⟨hk, hlex⟩ := hpunct _ hl
    exact ⟨hk, by rw [hlex]; decide, (Expr.leaves_call _ [e]).trans (hcons [])⟩
  | @argument _ before hl => exact ⟨(hpunct _ hl).1, hcons before⟩
  | @call _ before hl =>
    obtain ⟨hk, hlex⟩ := hpunct _ hl
    exact ⟨hk, by rw [hlex]; decide, (Expr.leaves_call _ _).trans (hrev before)⟩
  | @item before hl => exact ⟨(hpunct _ hl).1, hcons before⟩
  | @bar before hl => exact ⟨(hpunct _ hl).1, hcons before⟩
  | @list before hl =>
    obtain ⟨hk, hlex⟩ := hpunct _ hl
    exact ⟨hk, by rw [hlex]; decide, (Expr.leaves_list _ _).trans (hrev before)⟩
  | tail hl =>
    obtain ⟨hk, hlex⟩ := hpunct _ hl
    refine ⟨hk, by rw [hlex]; decide, ?_⟩
    rw [Expr.leaves_list, Expr.leavesAll_reverse]
    rfl

theorem keeps_stepBracket {b : Bracket} {max : Nat} {stream : LexemeStream}
    (h : n ≤ ((Frame.contents b max :: F).map Frame.leaves).sum + e.leaves +
      sureLeaves g.ops false stream) : (g.stepBracket b max F e stream).Keeps g.ops n := by
  have hfail : ∀ err rest, (Progress.done (ReadResult.fail (.contents b max :: F) [e] err rest)
      : Progress ReadState ReadResult).Keeps g.ops n := by
    intro err rest e' he'
    cases he'
  have hb : ((Frame.contents b max :: F).map Frame.leaves).sum =
      Expr.leavesAll b.exprs + (F.map Frame.leaves).sum := List.sum_cons
  rw [hb] at h
  unfold Grammar.stepBracket
  split
  · exact hfail _ _
  · exact hfail _ _
  · next l rest =>
    split
    · next e' hn =>
      obtain ⟨hk, hclose, hleaves⟩ := leaves_next? hn
      rw [sureLeaves_punct false hk, decide_eq_false hclose] at h
      show n ≤ (F.map Frame.leaves).sum + (e'.leaves + sureLeaves g.ops false rest)
      omega
    · next b' hn =>
      obtain ⟨hk, hleaves⟩ := leaves_next? hn
      rw [sureLeaves_punct false hk] at h
      have hle := sureLeaves_le_true g.ops (l.token.lexeme ∈ ["(", "[", "\x7b", ",", "|"]) rest
      have hb' : ((Frame.contents b' max :: F).map Frame.leaves).sum =
          Expr.leavesAll b'.exprs + (F.map Frame.leaves).sum := List.sum_cons
      show n ≤ ((Frame.contents b' max :: F).map Frame.leaves).sum + sureLeaves g.ops true rest
      omega
    · exact hfail _ _

theorem keeps_stepComplete {stream : LexemeStream}
    (h : n ≤ (F.map Frame.leaves).sum + e.leaves + sureLeaves g.ops false stream) :
    (g.stepComplete e stream F).Keeps g.ops n := by
  unfold Grammar.stepComplete
  split
  · intro e' he'
    cases he'
    rw [List.map_nil, List.sum_nil, Nat.zero_add] at h
    exact h
  · next left name priority max F =>
    have hsum : ((Frame.rightOperand left name priority max :: F).map Frame.leaves).sum =
        left.leaves + (F.map Frame.leaves).sum := List.sum_cons
    have he : (Expr.compound [left] name [e]).leaves = left.leaves + e.leaves := rfl
    show n ≤ (F.map Frame.leaves).sum + ((Expr.compound [left] name [e]).leaves +
      sureLeaves g.ops false stream)
    omega
  · next name priority max F =>
    have hsum : ((Frame.onlyOperand name priority max :: F).map Frame.leaves).sum =
        0 + (F.map Frame.leaves).sum := List.sum_cons
    have he : (Expr.compound [] name [e]).leaves = 0 + e.leaves := rfl
    show n ≤ (F.map Frame.leaves).sum + ((Expr.compound [] name [e]).leaves +
      sureLeaves g.ops false stream)
    omega
  · exact keeps_stepBracket h

/-- An operator behind an operand is no leaf, and what stands behind a comma or a bar is an operand. -/
theorem sureLeaves_operator (hr : g.ops.Regular) {priority max : Nat} {d : OpDef}
    (h : g.operator? priority max l = some d) (rest : LexemeStream) :
    sureLeaves g.ops false (.ok l :: rest) ≤ sureLeaves g.ops (d.stands .between) rest := by
  obtain ⟨-, -, name, hn, hstands⟩ := Grammar.operator?_eq_some h
  have hop : g.ops.isOp name = true := by
    rcases hstands with ⟨-, hd⟩ | ⟨-, hd⟩
    · exact OpTable.isOp_iff.2 ⟨_, d, hd⟩
    · exact OpTable.isOp_iff.2 ⟨_, d, hd⟩
  unfold Lexeme.operatorName? at hn
  split at hn
  · next hk =>
    cases hn
    have ha : surelyAtom g.ops false l.token.lexeme rest = false := by
      unfold surelyAtom
      split
      · rw [if_pos hop, Bool.false_and]
      · rfl
    rw [sureLeaves_of_not_surelyAtom hk ha]
    exact sureLeaves_le _ _ _
  · next hk =>
    split at hn
    · next hsep =>
      cases hn
      have hlex : l.token.lexeme = "," ∨ l.token.lexeme = "|" := by
        simpa [Lexeme.isPunct, Token.isPunct, hk] using hsep
      -- a separator never stands behind its operand
      have hbetween : d.stands .between = true := by
        rcases hstands with ⟨hd, -⟩ | ⟨-, hd⟩
        · exact hd
        · rw [(hr.separator _ hlex).2] at hd
          cases hd
      rw [sureLeaves_punct false hk, hbetween]
      exact sureLeaves_le_true _ _ _
    · cases hn
  · cases hn

theorem keeps_stepBehind (hr : g.ops.Regular) {priority max : Nat} {stream : LexemeStream}
    (h : n ≤ (F.map Frame.leaves).sum + e.leaves + sureLeaves g.ops false stream) :
    (g.stepBehind F e priority max stream).Keeps g.ops n := by
  unfold Grammar.stepBehind
  split
  · exact keeps_stepComplete h
  · intro e' he'
    cases he'
  · next l rest =>
    split
    · exact keeps_stepComplete h
    · next d hd =>
      have hle := sureLeaves_operator hr hd rest
      split
      · next hs =>
        rw [hs] at hle
        have hsum : ((Frame.rightOperand e l.operatorTerm d.priority max :: F).map
            Frame.leaves).sum = e.leaves + (F.map Frame.leaves).sum := List.sum_cons
        show n ≤ ((Frame.rightOperand e l.operatorTerm d.priority max :: F).map Frame.leaves).sum +
          sureLeaves g.ops true rest
        omega
      · next hs =>
        rw [Bool.not_eq_true] at hs
        rw [hs] at hle
        have he : (Expr.compound [e] l.operatorTerm []).leaves = e.leaves + 0 := rfl
        show n ≤ (F.map Frame.leaves).sum + ((Expr.compound [e] l.operatorTerm []).leaves +
          sureLeaves g.ops false rest)
        omega

/-! ## Reading -/

/-- No step loses leaves. -/
theorem keeps_step (hr : g.ops.Regular) (s : ReadState) :
    (g.step s).Keeps g.ops (s.leaves g.ops) := by
  obtain ⟨F, focus, stream⟩ := s
  cases focus with
  | behind e priority max =>
    refine keeps_stepBehind hr (Nat.le_of_eq ?_)
    exact (Nat.add_assoc _ _ _).symm
  | operand M =>
    have hk := keeps_operand (g := g) M stream
    have hs : (ReadState.mk F (.operand M) stream).leaves g.ops =
        (F.map Frame.leaves).sum + sureLeaves g.ops true stream := rfl
    rw [hs]
    simp only [Grammar.step]
    split
    · next e rest h =>
      rw [h] at hk
      exact Nat.add_le_add_left hk _
    · next f inner rest h =>
      rw [h] at hk
      have hk : sureLeaves g.ops true stream ≤ f.leaves + sureLeaves g.ops true rest := hk
      have hsum : ((f :: F).map Frame.leaves).sum = f.leaves + (F.map Frame.leaves).sum :=
        List.sum_cons
      show _ ≤ ((f :: F).map Frame.leaves).sum + sureLeaves g.ops true rest
      omega
    · intro e he
      cases he

theorem Grammar.Goes.leaves_le (hr : g.ops.Regular) {s s' : ReadState} (h : g.Goes s s') :
    s.leaves g.ops ≤ s'.leaves g.ops := by
  induction h with
  | refl => exact Nat.le_refl _
  | @tail s₁ s₂ _ h ih =>
    have := keeps_step hr s₁
    rw [h] at this
    exact Nat.le_trans ih this

/-- A term that is read has all leaves that were complete or sure to come on the way. -/
theorem leaves_le_finish (hr : g.ops.Regular) (s : ReadState) {e : Expr}
    (h : (g.finish s).value = .ok e) :
    s.leaves g.ops ≤ e.leaves + sureLeaves g.ops false (g.finish s).rest := by
  fun_induction Grammar.finish g s with
  | case1 s s' hs ih =>
    have := keeps_step hr s
    rw [hs] at this
    exact Nat.le_trans this (ih h)
  | case2 s r hs =>
    have := keeps_step hr s
    rw [hs] at this
    exact this e h

end PrologTerms
