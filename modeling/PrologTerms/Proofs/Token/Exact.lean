import PrologTerms.Proofs.Token.Parts

/-!
# What has the form of a token is read as one

The grammar of tokens says exactly what is read: a text is read as a token if and only if it is a longest
match, and is no number that is cut off. Therefore a token depends on what follows it only in so far as the
grammar says, and stays the same if that is replaced by layout.
-/

namespace PrologTerms

variable {c q : Char} {cs ds rest : List Char} {p : Char → Bool} {kind : TokenKind} {s : String}

/-- The text `cs`, with `rest` behind it, is read as one token. -/
def ScansAs (cs rest : List Char) (kind : TokenKind) (s : String) : Prop :=
  ∃ c cs', cs = c :: cs' ∧ scanToken c (cs' ++ rest) = ⟨.ok (kind, s), ⟨cs, rest⟩⟩

/-! ## Tokens -/

/-- Where layout begins, all of it is a token. -/
theorem scanToken_of_startsLayout (h : PrologTerms.startsLayout (c :: cs) = true) :
    scanToken c cs = (splitLayout .between (c :: cs)).token .layout := by
  rw [PrologTerms.startsLayout, Bool.or_eq_true] at h
  rw [scanToken]
  split
  · rfl
  · next hcomment =>
    have hclass : CharClass.of c = .layout := by simpa [isLayout, hcomment] using h
    rw [hclass]

/-- Layout is a token if no more layout follows. -/
theorem IsLayoutText.scansAs (h : IsLayoutText cs rest) (hne : cs ≠ [])
    (hr : rest = [] ∨ PrologTerms.startsLayout rest = false) :
    ScansAs cs rest .layout (String.ofList cs) := by
  obtain ⟨c, cs, rfl⟩ := List.exists_cons_of_ne_nil hne
  have hstarts := h.startsLayout hne rest
  have hsplit := h.splitLayout hr
  rw [List.cons_append] at hstarts hsplit
  refine ⟨c, cs, rfl, ?_⟩
  rw [scanToken_of_startsLayout hstarts, hsplit]
  rfl

theorem scansAs_alpha (hcs : ∀ d ∈ cs, isAlpha d = true) (hr : ∀ r ∈ rest.head?, isAlpha r = false)
    (hc : isSmall c = true ∧ kind = .name ∨ (isCapital c = true ∨ c = '_') ∧ kind = .var) :
    ScansAs (c :: cs) rest kind (String.ofList (c :: cs)) := by
  have halpha : isAlpha c = true := by
    rcases hc with ⟨hc, -⟩ | ⟨hc | rfl, -⟩
    · simp [isAlpha, hc]
    · simp [isAlpha, hc]
    · rfl
  have hspan := span_append (List.forall_mem_cons.2 ⟨halpha, hcs⟩) hr
  rw [List.cons_append] at hspan
  refine ⟨c, cs, rfl, ?_⟩
  rcases hc with ⟨hc, rfl⟩ | ⟨hc | rfl, rfl⟩
  · have hclass : CharClass.of c = .small := beq_iff_eq.1 hc
    rw [scanToken, startsComment_of_class hclass (by decide) (by decide), if_neg (by decide), hclass]
    simp only [hspan]
    rfl
  · have hclass : CharClass.of c = .capital := beq_iff_eq.1 hc
    rw [scanToken, startsComment_of_class hclass (by decide) (by decide), if_neg (by decide), hclass]
    simp only [hspan]
    rfl
  · have hclass : CharClass.of '_' = .other := by decide
    rw [scanToken, startsComment_of_class hclass (by decide) (by decide), if_neg (by decide), hclass]
    simp only [if_true, hspan]
    rfl

theorem scanToken_digit (hc : isDigit c = true) (cs : List Char) :
    scanToken c cs = scanNumber (c :: cs) := by
  have hclass : CharClass.of c = .digit := beq_iff_eq.1 hc
  rw [scanToken, startsComment_of_class hclass (by decide) (by decide), if_neg (by decide), hclass]

theorem scansAs_of_scanNumber (hd : IsDigits ds)
    (h : scanNumber (ds ++ cs ++ rest) = ⟨.ok (kind, s), ⟨ds ++ cs, rest⟩⟩) :
    ScansAs (ds ++ cs) rest kind s := by
  obtain ⟨d, ds, rfl⟩ := List.exists_cons_of_ne_nil hd.1
  refine ⟨d, ds ++ cs, rfl, ?_⟩
  rw [scanToken_digit (hd.2 d List.mem_cons_self)]
  exact h

theorem scansAs_symbol (hne : cs ≠ []) (hcs : ∀ d ∈ cs, isSymbol d = true) (h : ¬ ['/', '*'] <:+: cs)
    (hdot : cs ≠ ['.']) (hr : ∀ r ∈ rest.head?, isSymbol r = true → ['/', '*'] <+: rest) :
    ScansAs cs rest .name (String.ofList cs) := by
  obtain ⟨c, cs, rfl⟩ := List.exists_cons_of_ne_nil hne
  have hc := hcs c List.mem_cons_self
  have hclass : CharClass.of c = .symbol := beq_iff_eq.1 hc
  have hstop : ¬ (c = '.' ∧ endsClause (cs ++ rest) = true) := by
    rintro ⟨rfl, hend⟩
    cases cs with
    | nil => exact hdot rfl
    | cons d cs =>
      have hd := hcs d (List.mem_cons_of_mem _ List.mem_cons_self)
      rw [endsClause_append hd (fun hi => h (List.infix_cons hi)) hr] at hend
      cases hend
  have hsplit := splitSymbol_append hcs h hr
  rw [List.cons_append] at hsplit
  refine ⟨c, cs, rfl, ?_⟩
  rw [scanToken, startsComment_append hc h hr, if_neg (by decide), hclass]
  dsimp only
  rw [if_neg hstop, hsplit]
  rfl

theorem scansAs_quoted (h : QuotedBody q cs ds) (hr : rest.head? ≠ some q)
    (hq : q = '\'' ∧ kind = .name ∨ q = '"' ∧ kind = .string) :
    ScansAs (q :: cs ++ [q]) rest kind (String.ofList ds) := by
  refine ⟨q, cs ++ [q], rfl, ?_⟩
  rw [List.append_assoc, List.singleton_append]
  rcases hq with ⟨rfl, rfl⟩ | ⟨rfl, rfl⟩
  · have hclass : CharClass.of '\'' = .quote := by decide
    rw [scanToken, startsComment_of_class hclass (by decide) (by decide), if_neg (by decide), hclass]
    dsimp only
    rw [if_pos rfl, h.scan (by decide) hr]
    rfl
  · have hclass : CharClass.of '"' = .quote := by decide
    rw [scanToken, startsComment_of_class hclass (by decide) (by decide), if_neg (by decide), hclass]
    dsimp only
    rw [if_neg (by decide), h.scan (by decide) hr]
    rfl

theorem scansAs_solo (hc : isSolo c = true) (rest : List Char) :
    ScansAs [c] rest .name (String.ofList [c]) := by
  have hclass : CharClass.of c = .solo := beq_iff_eq.1 hc
  refine ⟨c, [], rfl, ?_⟩
  rw [scanToken, startsComment_of_class hclass (by decide) (by decide), if_neg (by decide), hclass]
  rfl

theorem scansAs_punct (hc : isPunctuation c = true) (hne : c ≠ '%') (rest : List Char) :
    ScansAs [c] rest .punct (String.ofList [c]) := by
  have hclass : CharClass.of c = .punctuation := beq_iff_eq.1 hc
  have hslash : c ≠ '/' := by
    rintro rfl
    exact absurd hc (by decide)
  refine ⟨c, [], rfl, ?_⟩
  rw [scanToken, startsComment_cons hne hslash, if_neg (by decide), hclass]
  rfl

theorem endsClause_of_startsLayout (hr : startsLayout rest = true) : endsClause rest = true := by
  cases rest with
  | nil => rfl
  | cons r rs => rw [endsClause, hr, Bool.or_true]

theorem scansAs_stop (hr : endsClause rest = true) : ScansAs ['.'] rest .stop (String.ofList ['.']) := by
  have hclass : CharClass.of '.' = .symbol := by decide
  refine ⟨'.', [], rfl, ?_⟩
  rw [scanToken, startsComment_cons (by decide) (by decide), if_neg (by decide), hclass]
  dsimp only
  rw [if_pos ⟨rfl, hr⟩]
  rfl

/-- What is a longest match and is not cut off is read as a token. -/
theorem LongestMatch.scansAs (h : LongestMatch kind s cs rest) (hu : Uncut cs rest) :
    ScansAs cs rest kind s := by
  cases h with
  | word hc hcs hr => exact scansAs_alpha hcs hr (.inl ⟨hc, rfl⟩)
  | symbol hne hcs hcomment hdot hr => exact scansAs_symbol hne hcs hcomment hdot hr
  | solo hc => exact scansAs_solo hc rest
  | quoted h hr => exact scansAs_quoted h hr (.inl ⟨rfl, rfl⟩)
  | var hc hcs hr => exact scansAs_alpha hcs hr (.inr ⟨hc, rfl⟩)
  | decimal h hr hquote =>
    have hscan := scanNumber_decimal h hr hquote hu
    rw [← List.append_nil cs] at hscan ⊢
    exact scansAs_of_scanNumber h hscan
  | based hb hd hr => exact scansAs_of_scanNumber hb.1 (scanNumber_based hb hd hr)
  | literal h => exact scansAs_of_scanNumber isDigits_zero (scanNumber_literal h)
  | float h hr =>
    have hscan := scanNumber_float h hr hu
    cases h with
    | fraction hd hf => exact scansAs_of_scanNumber hd hscan
    | exponent hd he => exact scansAs_of_scanNumber hd hscan
    | @both ds fs es hd hf he =>
      have hassoc : ds ++ '.' :: fs ++ es = ds ++ ('.' :: fs ++ es) := List.append_assoc _ _ _
      rw [hassoc] at hscan ⊢
      exact scansAs_of_scanNumber hd hscan
  | string h hr => exact scansAs_quoted h hr (.inr ⟨rfl, rfl⟩)
  | @punct c rest hc =>
    have hall : ∀ c ∈ ['(', ')', ',', '[', ']', '{', '|', '}'], isPunctuation c = true ∧ c ≠ '%' :=
      List.all_iff_forall_prop.1 (by decide)
    exact scansAs_punct (hall c hc).1 (hall c hc).2 rest
  | layout hne h hr hcomment =>
    refine h.scansAs hne ?_
    cases rest with
    | nil => exact .inl rfl
    | cons r rest => exact .inr (by rw [startsLayout, hcomment, hr r rfl, Bool.or_false])
  | stop hr => exact scansAs_stop ((endsClause_iff rest).2 hr)

/-- What has been read at the front of a text is read as a token. -/
theorem scansAs_of_scanToken (h : scanToken c cs = ⟨.ok (kind, s), ⟨ds, rest⟩⟩) :
    c :: cs = ds ++ rest ∧ ScansAs ds rest kind s := by
  have hwhole := whole_scanToken c cs
  have htaken := taken_scanToken_ne_nil c cs
  rw [h] at hwhole htaken
  obtain ⟨d, ds, rfl⟩ := List.exists_cons_of_ne_nil htaken
  obtain ⟨rfl, rfl⟩ := List.cons.inj hwhole
  exact ⟨rfl, d, ds, rfl, h⟩

theorem ScansAs.longestMatch (h : ScansAs cs rest kind s) : LongestMatch kind s cs rest := by
  obtain ⟨c, cs, rfl, h⟩ := h
  exact longestMatch_scanToken h

/-- All digits at the front of a text belong to the number there. -/
theorem not_digit_of_scanNumber (hd : IsDigits cs)
    (h : scanNumber (cs ++ rest) = ⟨.ok (kind, s), ⟨cs, rest⟩⟩) : ∀ r ∈ rest.head?, isDigit r = false := by
  intro r hr
  have hprefix := prefix_taken_scanNumber (cs ++ rest)
  rw [h, List.takeWhile_append_of_pos hd.2] at hprefix
  have hlen := hprefix.length_le
  obtain ⟨rest, rfl⟩ := List.head?_eq_some_iff.1 hr
  by_contra hdigit
  rw [Bool.not_eq_false] at hdigit
  rw [List.length_append, List.takeWhile_cons_of_pos hdigit, List.length_cons] at hlen
  exact absurd hlen (by simp)

/-- What is read as a token is not cut off. -/
theorem ScansAs.uncut (h : ScansAs cs rest kind s) : Uncut cs rest := by
  -- a text that begins with digits is read as a number
  have hnumber : ∀ ds more, IsDigits ds → cs = ds ++ more →
      scanNumber (cs ++ rest) = ⟨.ok (kind, s), ⟨cs, rest⟩⟩ := by
    rintro ds more hd rfl
    obtain ⟨d, ds, rfl⟩ := List.exists_cons_of_ne_nil hd.1
    obtain ⟨c, cs', e, hscan⟩ := h
    cases e
    rw [scanToken_digit (hd.2 d List.mem_cons_self)] at hscan
    exact hscan
  -- nothing is read that is longer
  have hlonger : ∀ front (scan : Scan (TokenKind × String)), scan = ⟨.ok (kind, s), ⟨cs, rest⟩⟩ →
      front <+: scan.split.taken → ¬ cs.length < front.length := by
    rintro front scan rfl hprefix hlt
    exact absurd hprefix.length_le (Nat.not_le.2 hlt)
  refine ⟨fun hd more e => ?_, ?_⟩
  · subst e
    have hscan := hnumber cs [] hd (List.append_nil cs).symm
    cases more with
    | nil =>
      rw [scanNumber, span_append hd.2 (not_digit_of_scanNumber hd hscan)] at hscan
      cases hscan
    | cons c more =>
      rw [scanNumber_point hd] at hscan
      split_ifs at hscan with hc hlayout
      · exact absurd (by simp) (hlonger _ _ hscan (prefix_taken_scanFraction _ _))
      · exact ⟨List.cons_ne_nil _ _, hlayout⟩
      · cases hscan
  · intro hform r hr hmark
    obtain ⟨rest, rfl⟩ := List.head?_eq_some_iff.1 hr
    rcases hform with hd | ⟨ds, fs, rfl, hd, hf⟩
    · have hscan := hnumber cs [] hd (List.append_nil cs).symm
      rw [scanNumber_mark hd hmark] at hscan
      exact absurd (by simp) (hlonger _ _ hscan (prefix_taken_scanExponent _ _))
    · have hscan := hnumber ds _ hd rfl
      obtain ⟨f, fs, rfl⟩ := List.exists_cons_of_ne_nil hf.1
      rw [List.append_assoc, List.cons_append, List.cons_append,
        scanNumber_point hd, if_pos (hf.2 f List.mem_cons_self), ← List.cons_append,
        scanFraction_mark _ hf hmark] at hscan
      exact absurd (by simp) (hlonger _ _ hscan (prefix_taken_scanExponent _ _))

/-- A text is read as a token if and only if it is a longest match, and is no number that is cut off. -/
theorem scansAs_iff : ScansAs cs rest kind s ↔ LongestMatch kind s cs rest ∧ Uncut cs rest :=
  ⟨fun h => ⟨h.longestMatch, h.uncut⟩, fun h => h.1.scansAs h.2⟩

/-- Only layout begins like layout. -/
theorem ScansAs.layout_iff (h : ScansAs cs rest kind s) :
    kind = .layout ↔ startsLayout (cs ++ rest) = true := by
  constructor
  · rintro rfl
    cases h.longestMatch with
    | layout hne htext => exact htext.startsLayout hne rest
  · intro hlayout
    obtain ⟨c, cs, rfl, h⟩ := h
    rw [List.cons_append] at hlayout
    rw [scanToken_of_startsLayout hlayout] at h
    exact (Split.token_eq h).1

theorem startsLayout_of_scansAs (h : ScansAs cs rest kind s) (hk : kind ≠ .layout) :
    startsLayout (cs ++ rest) = false :=
  Bool.eq_false_iff.2 fun hlayout => hk (h.layout_iff.2 hlayout)

/-- What is read at the front of a text as a token is all that is read there. -/
theorem ScansAs.unique {cs' rest' : List Char} {kind' : TokenKind} {s' : String}
    (h : ScansAs cs rest kind s) (h' : ScansAs cs' rest' kind' s') (e : cs ++ rest = cs' ++ rest') :
    cs = cs' ∧ rest = rest' ∧ kind = kind' ∧ s = s' := by
  obtain ⟨c, cs, rfl, hscan⟩ := h
  obtain ⟨c', cs', rfl, hscan'⟩ := h'
  rw [List.cons_append, List.cons_append] at e
  obtain ⟨rfl, htail⟩ := List.cons.inj e
  rw [htail, hscan'] at hscan
  cases hscan
  exact ⟨rfl, rfl, rfl, rfl⟩

/-! ## Replacing what follows a token -/

/-- What follows a token may be replaced by layout, or by something that begins in the same way and is no
layout. -/
def Replaces (rest rest' : List Char) : Prop :=
  startsLayout rest' = true ∨ rest.head? = rest'.head? ∧ startsLayout rest = false

variable {rest' : List Char}

/-- If something does not stand behind a token that is not found where layout begins, then it does not stand
behind it afterwards. -/
theorem Replaces.not_head (h : Replaces rest rest')
    (hp : ∀ r, CharClass.of r ∈ [.layout, .punctuation, .symbol] → p r = false)
    (hr : ∀ r ∈ rest.head?, p r = false) : ∀ r ∈ rest'.head?, p r = false := by
  rcases h with hlayout | ⟨hhead, -⟩
  · exact fun r h => hp r (class_of_startsLayout hlayout r h)
  · rwa [← hhead]

theorem not_alpha_of_class (h : CharClass.of c ∈ [.layout, .punctuation, .symbol]) :
    isAlpha c = false := by
  have hunderline : c ≠ '_' := by
    rintro rfl
    exact absurd h (by decide)
  rw [isAlpha, isSmall, isCapital, isDigit, beq_eq_false_iff_ne.2 hunderline]
  simp only [List.mem_cons, List.not_mem_nil, or_false] at h
  rcases h with h | h | h <;> rw [h] <;> rfl

theorem Replaces.not_alpha (h : Replaces rest rest') (hp : ∀ r, p r = true → isAlpha r = true)
    (hr : ∀ r ∈ rest.head?, p r = false) : ∀ r ∈ rest'.head?, p r = false := by
  refine h.not_head (fun r hclass => ?_) hr
  by_contra hpr
  have halpha := hp r (Bool.of_not_eq_false hpr)
  rw [not_alpha_of_class hclass] at halpha
  cases halpha

theorem Replaces.not_quote (h : Replaces rest rest') (hq : CharClass.of q = .quote)
    (hr : rest.head? ≠ some q) : rest'.head? ≠ some q := by
  intro e
  have hnot : ∀ r ∈ rest'.head?, (r == q) = false := by
    refine h.not_head (fun r hclass => beq_eq_false_iff_ne.2 ?_)
      fun r hr' => beq_eq_false_iff_ne.2 ?_
    · rintro rfl
      rw [hq] at hclass
      exact absurd hclass (by decide)
    · rintro rfl
      exact hr hr'
  exact absurd rfl (beq_eq_false_iff_ne.1 (hnot q e))

/-- No symbol stands behind a token afterwards, except where a comment begins. -/
theorem Replaces.symbol (h : Replaces rest rest')
    (hr : ∀ r ∈ rest.head?, isSymbol r = true → startsComment rest = true) :
    ∀ r ∈ rest'.head?, isSymbol r = true → startsComment rest' = true := by
  intro r hhead hsymbol
  have hlayout : isLayout r = false := by
    rw [isLayout, beq_iff_eq.1 hsymbol]
    rfl
  rcases h with h | ⟨e, h⟩
  · obtain ⟨rest', rfl⟩ := List.head?_eq_some_iff.1 hhead
    rwa [startsLayout, hlayout, Bool.or_false] at h
  · rw [← e] at hhead
    have hcomment := hr r hhead hsymbol
    obtain ⟨rest, rfl⟩ := List.head?_eq_some_iff.1 hhead
    rw [startsLayout, hcomment] at h
    cases h

theorem isAlpha_of_isDigitOf {base : Nat} (h : isDigitOf base c = true) : isAlpha c = true := by
  rw [isDigitOf, digitValue?] at h
  split_ifs at h with hdigit hsmall hcapital
  · exact isAlpha_of_isDigit (isDigit_iff.2 (Char.isDigit_iff_toNat.2 hdigit))
  · have hle : 97 ≤ c.toNat ∧ c.toNat ≤ 122 := hsmall
    have hclass : CharClass.of c = .small := by
      rw [CharClass.of, if_pos (by omega), CharClass.ofLatin1, if_neg (by omega), if_pos (.inl hle)]
    simp [isAlpha, isSmall, hclass]
  · have hle : 65 ≤ c.toNat ∧ c.toNat ≤ 90 := hcapital
    have hclass : CharClass.of c = .capital := by
      rw [CharClass.of, if_pos (by omega), CharClass.ofLatin1, if_neg (by omega), if_neg (by omega),
        if_pos (.inl hle)]
    simp [isAlpha, isCapital, hclass]
  · cases h

theorem Escape.replace {d : Char} (h : Escape cs (some d) rest) (hr : Replaces rest rest') :
    Escape cs (some d) rest' := by
  generalize e : some d = d' at h
  cases h with
  | letter h => exact .letter h
  | hex hc hd => exact .hex hc hd
  | delete => exact .delete
  | capital h => exact .capital h
  | small h => exact .small h
  | octal hne hlen hcs h =>
    refine .octal hne hlen hcs fun hlt => hr.not_alpha (fun r hr => ?_) (h hlt)
    exact isAlpha_of_isDigit (isDigit_of_isOctal hr)
  | layout h => cases e
  | skip hcs h => cases e
  | self hl hc ho hs => exact .self hl hc ho hs

/-- A token that is no layout stays as long as possible. -/
theorem LongestMatch.replace (h : LongestMatch kind s cs rest) (hk : kind ≠ .layout)
    (hr : Replaces rest rest') : LongestMatch kind s cs rest' := by
  have hquote : rest.head? ≠ some '\'' → rest'.head? ≠ some '\'' := hr.not_quote (by decide)
  cases h with
  | word hc hcs h => exact .word hc hcs (hr.not_alpha (fun _ => id) h)
  | symbol hne hcs hcomment hdot h =>
    refine .symbol hne hcs hcomment hdot fun r hhead hsymbol => ?_
    have hstarts := hr.symbol (fun r hhead hsymbol => (startsComment_iff rest).2 (.inr (h r hhead hsymbol)))
      r hhead hsymbol
    obtain ⟨rest', rfl⟩ := List.head?_eq_some_iff.1 hhead
    exact (startsComment_of_isSymbol hsymbol).1 hstarts
  | solo hc => exact .solo hc
  | quoted h hq => exact .quoted h (hquote hq)
  | var hc hcs h => exact .var hc hcs (hr.not_alpha (fun _ => id) h)
  | decimal h hd hbase =>
    refine .decimal h (hr.not_alpha (fun _ => isAlpha_of_isDigit) hd) fun e => hbase ?_
    exact by_contra fun hne => hquote hne e
  | based hb hd h => exact .based hb hd (hr.not_alpha (fun _ => isAlpha_of_isDigitOf) h)
  | literal h =>
    refine .literal ?_
    cases h with
    | plain hc hq => exact .plain hc fun e => hquote (hq e)
    | doubled => exact .doubled
    | escape h => exact .escape (h.replace hr)
  | float h hd => exact .float h (hr.not_alpha (fun _ => isAlpha_of_isDigit) hd)
  | string h hq => exact .string h (hr.not_quote (by decide) hq)
  | punct hc => exact .punct hc
  | layout => exact absurd rfl hk
  | stop h => exact .stop (hr.symbol h)

/-- A token that is no layout is read in the same way if what follows is replaced, as long as a point behind
digits stands in front of layout. -/
theorem ScansAs.replace (h : ScansAs cs rest kind s) (hk : kind ≠ .layout) (hr : Replaces rest rest')
    (hpoint : IsDigits cs → ∀ more, rest' = '.' :: more → more ≠ [] ∧ startsLayout more = true) :
    ScansAs cs rest' kind s := by
  refine (h.longestMatch.replace hk hr).scansAs ⟨hpoint, fun hform r hhead hm => ?_⟩
  have hnot := hr.not_alpha (p := fun r => decide (r ∈ ['e', 'E']))
    (fun r hr => (of_mem_marks (of_decide_eq_true hr)).1)
    (fun r hr => decide_eq_false (h.uncut.mark hform r hr)) r hhead
  exact of_decide_eq_false hnot hm

end PrologTerms
