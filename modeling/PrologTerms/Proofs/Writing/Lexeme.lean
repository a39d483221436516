import PrologTerms.Proofs.Reading.Step
import PrologTerms.Proofs.Token.Contents
import PrologTerms.Proofs.Token.Quoted
import PrologTerms.Proofs.Writing.Piece

/-!
# Written pieces are read as they were written

The text of tidy pieces is cut into exactly their tokens: none of them joins with its neighbours, is
divided, or vanishes in a comment.
-/

namespace PrologTerms

/-! ## Reading off lexemes -/

/-- The stream is what is read from the characters, with layout before them or not. -/
def Lexes (cs : List Char) (before : Bool) (stream : LexemeStream) : Prop :=
  ∃ k : Cursor, k.rest = cs ∧ stream = LexemeStream.ofItems before k.items

/-- The stream begins with the tokens `ts`, without layout between them, and goes on as `next`
says. -/
def Begins (next : Bool → LexemeStream → Prop) :
    List (TokenKind × String) → Bool → LexemeStream → Prop
  | [], before, stream => next before stream
  | (kind, s) :: ts, before, stream =>
    ∃ l rest, stream = .ok l :: rest ∧ l.Is kind s before ∧ Begins next ts false rest

/-- The stream begins with a full stop that ends a clause, and goes on with what is read from `more`. -/
def Stops (more : List Char) (stream : LexemeStream) : Prop :=
  ∃ l rest, stream = .ok l :: rest ∧ l.token.kind = .stop ∧ l.layoutBehind = true ∧
    Lexes more false rest

variable {cs rest more : List Char} {kind : TokenKind} {s : String} {b : Bool}
  {stream : LexemeStream}

theorem lexes_ofText (text : String) : Lexes text.toList false (.ofText text) :=
  ⟨Cursor.ofText text, rfl, rfl⟩

theorem Lexes.token (h : Lexes (cs ++ rest) b stream) (hs : ScansAs cs rest kind s)
    (hk : kind ≠ .layout) : ∃ l stream', stream = .ok l :: stream' ∧ l.Is kind s b ∧
      l.layoutBehind = startsLayout rest ∧ Lexes rest false stream' := by
  obtain ⟨k, hrest, rfl⟩ := h
  let k' := k.move ⟨cs, rest⟩
  refine ⟨⟨⟨kind, s, ⟨k.offset, k'.offset⟩, k.pos⟩, b, startsLayout rest⟩, _, ?_, ⟨rfl, rfl, rfl⟩, rfl,
    k', rfl, rfl⟩
  rw [Cursor.items_of_scansAs hrest hs, LexemeStream.ofItems, if_neg hk]
  rfl

theorem Lexes.layout (h : Lexes (cs ++ rest) b stream) (hs : ScansAs cs rest .layout s) :
    Lexes rest true stream := by
  obtain ⟨k, hrest, rfl⟩ := h
  refine ⟨k.move ⟨cs, rest⟩, rfl, ?_⟩
  rw [Cursor.items_of_scansAs hrest hs, LexemeStream.ofItems, if_pos rfl]

theorem Lexes.nil (h : Lexes [] b stream) : stream = [] := by
  obtain ⟨k, hrest, rfl⟩ := h
  rw [Cursor.items_nil hrest]
  rfl

/-! ## Pieces and their tokens -/

/-- The tokens as which a piece is read: the brackets `[]` and `{}` are two tokens, and so are a minus
sign and the digits behind it. -/
def Piece.tokens (naming : Address → String) : Piece → List (TokenKind × String)
  | .atom name =>
    if name = "[]" then [(.punct, "["), (.punct, "]")]
    else if name = "{}" then [(.punct, "\x7b"), (.punct, "\x7d")]
    else [(.name, name)]
  | .functor name => [(.name, name)]
  | .int (.ofNat n) => [(.natural, String.ofList (Nat.toDigits 10 n))]
  | .int (.negSucc n) => [(.name, "-"), (.natural, String.ofList (Nat.toDigits 10 (n + 1)))]
  | .var i => [(.var, naming i)]
  | .punct c => [(.punct, String.ofList [c])]
  | .space => []

/-- The stream has the tokens of the pieces, with layout where they have spaces, and then a full stop
in front of what is read from `more`. -/
def Spells (naming : Address → String) (more : List Char) :
    List Piece → Bool → LexemeStream → Prop
  | [], _, stream => Stops more stream
  | .space :: ps, _, stream => Spells naming more ps true stream
  | p :: ps, before, stream => Begins (Spells naming more ps) (p.tokens naming) before stream

/-- The text `cs`, with `rest` behind it, is read as these tokens. -/
def ScansAllAs : List (TokenKind × String) → List Char → List Char → Prop
  | [], cs, _ => cs = []
  | (kind, s) :: ts, cs, rest =>
    ∃ cs₁ cs₂, cs = cs₁ ++ cs₂ ∧ ScansAs cs₁ (cs₂ ++ rest) kind s ∧ kind ≠ .layout ∧
      ScansAllAs ts cs₂ rest

theorem scansAllAs_one (h : ScansAs cs rest kind s) (hk : kind ≠ .layout) :
    ScansAllAs [(kind, s)] cs rest :=
  ⟨cs, [], (List.append_nil cs).symm, h, hk, rfl⟩

theorem ScansAllAs.startsLayout {ts : List (TokenKind × String)} (h : ScansAllAs ts cs rest)
    (hne : ts ≠ []) : startsLayout (cs ++ rest) = false := by
  cases ts with
  | nil => exact absurd rfl hne
  | cons t ts =>
    obtain ⟨cs₁, cs₂, rfl, hs, hk, -⟩ := h
    rw [List.append_assoc]
    exact startsLayout_of_scansAs hs hk

theorem Lexes.begins {ts : List (TokenKind × String)} {next : Bool → LexemeStream → Prop}
    (h : Lexes (cs ++ rest) b stream) (hs : ScansAllAs ts cs rest) (hne : ts ≠ [])
    (hnext : ∀ stream, Lexes rest false stream → next false stream) :
    Begins next ts b stream := by
  induction ts generalizing cs b stream with
  | nil => exact absurd rfl hne
  | cons t ts ih =>
    obtain ⟨cs₁, cs₂, rfl, hscan, hk, hs⟩ := hs
    rw [List.append_assoc] at h
    obtain ⟨l, stream', rfl, hl, -, h⟩ := h.token hscan hk
    refine ⟨l, stream', rfl, hl, ?_⟩
    cases ts with
    | nil =>
      cases hs
      exact hnext stream' h
    | cons t ts => exact ih h hs (List.cons_ne_nil _ _)

/-! ## The text of a piece -/

section Piece

variable {naming : Address → String}

theorem scansAllAs_brackets {c d : Char} (hc : isPunctuation c = true ∧ c ≠ '%')
    (hd : isPunctuation d = true ∧ d ≠ '%') : ScansAllAs
      [(.punct, String.ofList [c]), (.punct, String.ofList [d])] [c, d] rest :=
  ⟨[c], [d], rfl, scansAs_punct hc.1 hc.2 _, by decide,
    scansAllAs_one (scansAs_punct hd.1 hd.2 rest) (by decide)⟩

/-- An integer is read as its digits, behind a minus sign if it is negative. -/
theorem scansAllAs_int (n : Int) (hr : Apart (decimal n) rest) :
    ScansAllAs (Piece.tokens naming (.int n)) (decimal n) rest := by
  have hdigits : ∀ m : Nat, Apart (Nat.toDigits 10 m) rest →
      ScansAs (Nat.toDigits 10 m) rest .natural (String.ofList (Nat.toDigits 10 m)) := by
    intro m hr
    have hall : ∀ d ∈ Nat.toDigits 10 m, isDigit d = true := fun _ => isDigit_of_mem_toDigits
    obtain ⟨c, cs, e⟩ := List.exists_cons_of_ne_nil (Nat.toDigits_ne_nil (n := m) (b := 10))
    rw [e] at hr hall ⊢
    exact scansAs_digits hall hr
  cases n with
  | ofNat m => exact scansAllAs_one (hdigits m hr) (by decide)
  | negSucc m =>
    have hne : Nat.toDigits 10 (m + 1) ≠ [] := Nat.toDigits_ne_nil
    have hr' : Apart (Nat.toDigits 10 (m + 1)) rest := by
      refine ⟨hr.mem, fun c hc => hr.point c ?_⟩
      rw [decimal, List.getLast?_cons_of_ne_nil hne]
      exact hc
    refine ⟨['-'], Nat.toDigits 10 (m + 1), rfl, ?_, by decide,
      scansAllAs_one (hdigits _ hr') (by decide)⟩
    have hminus : ∀ d ∈ ['-'], isSymbol d = true := List.all_iff_forall_prop.1 (by decide)
    refine scansAs_symbol (List.cons_ne_nil _ _) hminus (by decide) (by decide) fun r h hsymbol => ?_
    -- the minus sign ends where the digits begin
    rw [Option.mem_def, List.head?_append_of_ne_nil _ hne] at h
    have hd := isDigit_of_mem_toDigits (List.mem_of_head? h)
    rw [isDigit, beq_iff_eq] at hd
    rw [isSymbol, hd] at hsymbol
    cases hsymbol

/-- A piece that is no space is read as its tokens. -/
theorem scansAllAs_text {p : Piece} {ps : List Piece} (hp : p ≠ .space) (ht : Tidy (p :: ps))
    (hv : ∀ i, p = .var i → IsVarName (naming i)) (hr : Breaks ps → Apart (p.text naming) rest) :
    ScansAllAs (p.tokens naming) (p.text naming) rest ∧ p.tokens naming ≠ [] := by
  have hbreaks := ht.breaks hp
  cases p with
  | space => exact absurd rfl hp
  | atom name =>
    have hr := hr (hbreaks (by simp))
    by_cases h₁ : name = "[]"
    · subst h₁
      exact ⟨scansAllAs_brackets (c := '[') (d := ']') (by decide) (by decide), List.cons_ne_nil _ _⟩
    by_cases h₂ : name = "{}"
    · subst h₂
      exact ⟨scansAllAs_brackets (c := '{') (d := '}') (by decide) (by decide), List.cons_ne_nil _ _⟩
    rw [Piece.tokens, if_neg h₁, if_neg h₂]
    exact ⟨scansAllAs_one (scansAs_atomText h₁ h₂ hr) (by decide), List.cons_ne_nil _ _⟩
  | functor name =>
    refine ⟨scansAllAs_one ?_ (by decide), List.cons_ne_nil _ _⟩
    have hr := hr (hbreaks (by simp))
    rw [Piece.text] at hr ⊢
    split
    · next h =>
      rw [if_pos h] at hr
      exact scansAs_quotedName hr
    · next h =>
      rw [if_neg h] at hr
      rw [not_or] at h
      exact scansAs_atomText h.1 h.2 hr
  | int n =>
    refine ⟨scansAllAs_int n (hr (hbreaks (by simp))), ?_⟩
    cases n <;> exact List.cons_ne_nil _ _
  | var i =>
    have hscan := scansAs_var (hv i rfl) (hr (hbreaks (by simp)))
    exact ⟨scansAllAs_one hscan (by decide), List.cons_ne_nil _ _⟩
  | punct c =>
    have hall : ∀ c ∈ openers ++ closers, isPunctuation c = true ∧ c ≠ '%' :=
      List.all_iff_forall_prop.1 (by decide)
    obtain ⟨h₁, h₂⟩ := hall c ht.mem_punct
    exact ⟨scansAllAs_one (scansAs_punct h₁ h₂ rest) (by decide), List.cons_ne_nil _ _⟩

/-! ## The text of a clause -/

/-- The text `final` ends a clause whose term has the text `cs`, in front of more text. -/
structure EndsClause (cs final more : List Char) : Prop where
  /-- A full stop, with a space before it or not. -/
  stop : final = '.' :: more ∨ final = ' ' :: '.' :: more
  /-- Behind a symbol or a digit there is a space. -/
  apart : ∀ c, cs.getLast? = some c → isSymbol c = true ∨ isDigit c = true → final.head? ≠ some '.'
  /-- The clause has layout behind it. -/
  layout : startsLayout more = true

theorem EndsClause.of_append {cs₁ cs₂ final : List Char} (h : EndsClause (cs₁ ++ cs₂) final more) :
    EndsClause cs₂ final more := by
  refine ⟨h.stop, fun c hc => h.apart c ?_, h.layout⟩
  rw [List.getLast?_append, hc, Option.some_or]

theorem EndsClause.mem_delimiters {final : List Char} (h : EndsClause cs final more) :
    ∀ r, final.head? = some r → r ∈ delimiters := by
  intro r hr
  rcases h.stop with rfl | rfl
  all_goals
    cases hr
    decide

theorem EndsClause.keepsApart {final : List Char} (h : EndsClause cs final more) : Apart cs final :=
  ⟨h.mem_delimiters, h.apart⟩

theorem Apart.of_append {cs₁ cs₂ final : List Char} (h : Apart (cs₁ ++ cs₂) final) : Apart cs₂ final := by
  refine ⟨h.mem, fun c hc => h.point c ?_⟩
  rw [List.getLast?_append, hc, Option.some_or]

/-- What stands behind a piece keeps it apart. -/
theorem apart_text {p : Piece} {ps : List Piece} {final : List Char} (ht : Tidy ps) (hb : Breaks ps)
    (hf : Apart (Piece.textAll naming (p :: ps)) final) :
    Apart (p.text naming) (Piece.textAll naming ps ++ final) := by
  have hall : ∀ c ∈ openers ++ closers, c ∈ delimiters ∧ c ≠ '.' :=
    List.all_iff_forall_prop.1 (by decide)
  cases ps with
  | nil =>
    rw [Piece.textAll, List.flatMap_cons, List.flatMap_nil, List.append_nil] at hf
    exact hf
  | cons q ps =>
    cases q with
    | space =>
      refine ⟨fun r hr => ?_, fun c _ _ hr => ?_⟩
      · cases hr
        decide
      · cases hr
    | punct d =>
      obtain ⟨h₁, h₂⟩ := hall d ht.mem_punct
      refine ⟨fun r hr => ?_, fun c _ _ hr => ?_⟩
      · cases hr
        exact h₁
      · cases hr
        exact h₂ rfl
    | _ => exact hb.elim

theorem stops_of_lexes {final : List Char} (hf : EndsClause cs final more)
    (h : Lexes final b stream) : Stops more stream := by
  have hscan := scansAs_stop (endsClause_of_startsLayout hf.layout)
  rcases hf.stop with rfl | rfl
  · have h : Lexes (['.'] ++ more) b stream := h
    obtain ⟨l, stream', rfl, hl, hlayout, h⟩ := h.token hscan (by decide)
    exact ⟨l, stream', rfl, hl.kind, hlayout.trans hf.layout, h⟩
  · have h : Lexes ([' '] ++ '.' :: more) b stream := h
    have hstop := startsLayout_of_scansAs hscan (by decide)
    have hspace := scansAs_layout (c := ' ') (by decide) (.inr hstop)
    have h : Lexes (['.'] ++ more) true stream := h.layout hspace
    obtain ⟨l, stream', rfl, hl, hlayout, h⟩ := h.token hscan (by decide)
    exact ⟨l, stream', rfl, hl.kind, hlayout.trans hf.layout, h⟩

/-- The first of some pieces is read as its tokens. -/
theorem scansAllAs_first {p : Piece} {ps : List Piece} {final : List Char} (hp : p ≠ .space)
    (ht : Tidy (p :: ps)) (hv : ∀ i, .var i ∈ p :: ps → IsVarName (naming i))
    (hf : Apart (Piece.textAll naming (p :: ps)) final) :
    ScansAllAs (p.tokens naming) (p.text naming) (Piece.textAll naming ps ++ final) ∧
      p.tokens naming ≠ [] := by
  refine scansAllAs_text hp ht (fun i hi => hv i (hi ▸ List.mem_cons_self)) fun hb => ?_
  exact apart_text ht.tail hb hf

/-- No layout comes before the first piece. -/
theorem startsLayout_textAll {p : Piece} {ps : List Piece} {final : List Char} (hp : p ≠ .space)
    (ht : Tidy (p :: ps)) (hv : ∀ i, .var i ∈ p :: ps → IsVarName (naming i))
    (hf : Apart (Piece.textAll naming (p :: ps)) final) :
    startsLayout (Piece.textAll naming (p :: ps) ++ final) = false := by
  obtain ⟨hscan, hne⟩ := scansAllAs_first hp ht hv hf
  rw [Piece.textAll, List.flatMap_cons, List.append_assoc]
  exact hscan.startsLayout hne

/-- Tidy pieces are read as they were written. -/
theorem spells_of_lexes {ps : List Piece} {final : List Char} (ht : Tidy ps)
    (hv : ∀ i, .var i ∈ ps → IsVarName (naming i))
    (hf : EndsClause (Piece.textAll naming ps) final more)
    (h : Lexes (Piece.textAll naming ps ++ final) b stream) : Spells naming more ps b stream := by
  induction ps generalizing b stream with
  | nil => exact stops_of_lexes hf h
  | cons p ps ih =>
    have hv' : ∀ i, .var i ∈ ps → IsVarName (naming i) := fun i hi => hv i (List.mem_cons_of_mem p hi)
    have hf' : EndsClause (Piece.textAll naming ps) final more := hf.of_append
    rw [Piece.textAll, List.flatMap_cons, List.append_assoc] at h
    by_cases hp : p = .space
    · subst hp
      obtain ⟨⟨q, qs, rfl, hq⟩, ht⟩ := ht
      have hq' : q ≠ .space := by
        rintro rfl
        cases hq
      have hstarts := startsLayout_textAll hq' ht hv' hf'.keepsApart
      exact ih ht hv' hf' (h.layout (scansAs_layout (by decide) (.inr hstarts)))
    · obtain ⟨hscan, hne⟩ := scansAllAs_first hp ht hv hf.keepsApart
      have hnext : Begins (Spells naming more ps) (p.tokens naming) b stream := by
        exact h.begins hscan hne fun stream' h' => ih ht.tail hv' hf' h'
      cases p with
      | space => exact absurd rfl hp
      | _ => exact hnext

end Piece

end PrologTerms
