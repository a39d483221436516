import PrologTerms.Proofs.Token.Digits
import PrologTerms.Proofs.Token.Form
import Mathlib.Data.List.Basic

/-!
# Tokens are as long as possible

What is read as a token at the front of a text has a form of its kind, and is followed by nothing that
would go on with it. Each of the functions that read a part of a token is shown to read a part of the
grammar.
-/

namespace PrologTerms

/-! ## Rows of characters -/

variable {c q : Char} {cs ds front taken rest : List Char} {p : Char → Bool} {kind : TokenKind}
  {s : String}

/-- A row of characters with a property ends where a character does not have it. -/
theorem span_spec (p : Char → Bool) (cs : List Char) :
    cs = (Split.span p cs).taken ++ (Split.span p cs).rest ∧
    (∀ d ∈ (Split.span p cs).taken, p d = true) ∧ ∀ r ∈ (Split.span p cs).rest.head?, p r = false := by
  refine ⟨(Split.whole_span p cs).symm, fun d hd => List.mem_takeWhile_imp hd, fun r hr => ?_⟩
  have hnot := List.head?_dropWhile_not p cs
  rw [Split.span, Option.mem_def] at hr
  rw [hr] at hnot
  exact hnot

theorem span_cons (hc : p c = true) (cs : List Char) :
    Split.span p (c :: cs) = (Split.span p cs).after [c] := by
  simp [Split.span, Split.after, hc]

theorem Split.token_eq {k : TokenKind} {split : Split}
    (h : split.token k = ⟨.ok (kind, s), ⟨taken, rest⟩⟩) :
    kind = k ∧ s = String.ofList taken ∧ split = ⟨taken, rest⟩ := by
  cases split
  cases h
  exact ⟨rfl, rfl, rfl⟩

/-! ## Reading what stands between quotes -/

/-- What was read behind the front of a text was read by itself. -/
theorem Scan.eq_of_map_after {α β : Type} {scan : Scan α} {f : α → β} {b : β}
    (h : (scan.after front).map f = ⟨.ok b, ⟨taken, rest⟩⟩) :
    ∃ a taken', scan = ⟨.ok a, ⟨taken', rest⟩⟩ ∧ b = f a ∧ taken = front ++ taken' := by
  obtain ⟨value, taken', rest'⟩ := scan
  cases value with
  | error e => cases h
  | ok a =>
    cases h
    exact ⟨a, taken', rfl, rfl, rfl⟩

theorem Escape.congr {rest' : List Char} {d : Option Char} (h : Escape cs d rest)
    (hr : rest.head? = rest'.head?) : Escape cs d rest' := by
  cases h with
  | letter h => exact .letter h
  | hex hc hd => exact .hex hc hd
  | delete => exact .delete
  | capital h => exact .capital h
  | small h => exact .small h
  | octal hne hlen hcs h => exact .octal hne hlen hcs fun hlt => hr ▸ h hlt
  | layout h => exact .layout h
  | skip hcs h => exact .skip hcs (hr ▸ h)
  | self hl hc ho hs => exact .self hl hc ho hs

theorem escape_scanHexPair {d : Char} (h : scanHexPair cs = ⟨.ok d, ⟨taken, rest⟩⟩) :
    Escape ('x' :: taken) (some d) rest := by
  unfold scanHexPair at h
  split at h
  · cases h
  · split at h
    · cases h
    · cases h
    · next hc =>
      split at h
      · cases h
      · next hd =>
        cases h
        exact .hex hc hd

theorem escape_scanControl {d : Char} (h : scanControl cs = ⟨.ok d, ⟨taken, rest⟩⟩) :
    Escape ('^' :: taken) (some d) rest := by
  unfold scanControl at h
  split at h
  · cases h
  · split_ifs at h with hdelete hcapital hsmall
    · cases h
      subst hdelete
      exact .delete
    · cases h
      exact .capital hcapital
    · cases h
      exact .small hsmall
    · cases h

/-- At most two octal digits are read behind the first one, and less only if no other one follows. -/
theorem escape_scanOctal {d : Char} (hc : isOctal c = true)
    (h : scanOctal c cs = ⟨.ok d, ⟨taken, rest⟩⟩) : Escape taken (some d) rest := by
  cases h
  have hmore : ∀ d ∈ (cs.take 2).takeWhile isOctal, isOctal d = true :=
    fun d hd => List.mem_takeWhile_imp hd
  have hlen : ((cs.take 2).takeWhile isOctal).length ≤ 2 :=
    (List.takeWhile_prefix _).length_le.trans (List.length_take_le 2 cs)
  refine .octal (List.cons_ne_nil _ _) (Nat.succ_le_succ hlen) ?_ ?_
  · intro d hd
    rcases List.mem_cons.1 hd with rfl | hd
    · exact hc
    · exact hmore d hd
  · intro hlt r hr
    match cs with
    | [] => cases hr
    | [a] =>
      by_cases ha : isOctal a = true
      · simp [ha] at hr
      · obtain rfl : a = r := by simpa [ha] using hr
        exact Bool.eq_false_iff.2 ha
    | a :: b :: cs =>
      by_cases ha : isOctal a = true
      · by_cases hb : isOctal b = true
        · simp [ha, hb] at hlt
        · obtain rfl : b = r := by simpa [ha, hb] using hr
          exact Bool.eq_false_iff.2 hb
      · obtain rfl : a = r := by simpa [ha] using hr
        exact Bool.eq_false_iff.2 ha

theorem escape_scanEscape {d : Option Char} (h : scanEscape cs = ⟨.ok d, ⟨taken, rest⟩⟩) :
    Escape taken d rest := by
  unfold scanEscape at h
  split at h
  · cases h
  · split at h
    · next hl =>
      cases h
      exact .letter hl
    · next c cs _ hl =>
      split_ifs at h with hx hskip hcontrol hoctal hlayout
      · obtain ⟨a, taken', hscan, rfl, rfl⟩ := Scan.eq_of_map_after h
        exact hx ▸ escape_scanHexPair hscan
      · subst hskip
        cases h
        obtain ⟨-, hall, hrest⟩ := span_spec isLayout cs
        exact .skip hall hrest
      · obtain ⟨a, taken', hscan, rfl, rfl⟩ := Scan.eq_of_map_after h
        exact hcontrol ▸ escape_scanControl hscan
      · cases h
        exact escape_scanOctal hoctal rfl
      · cases h
        exact .layout hlayout
      · cases h
        exact .self hl (by simp [hx, hskip, hcontrol]) (by simpa using hoctal) (by simpa using hlayout)

theorem quotedBody_scanQuoted {f : LexicalFault}
    (h : scanQuoted q f cs = ⟨.ok ds, ⟨taken, rest⟩⟩) :
    ∃ body, taken = body ++ [q] ∧ QuotedBody q body ds ∧ rest.head? ≠ some q := by
  fun_induction scanQuoted q f cs generalizing taken ds with
  | case1 => cases h
  | case2 cs hhead ih =>
    obtain ⟨ds', taken', hscan, rfl, rfl⟩ := Scan.eq_of_map_after h
    obtain ⟨body, rfl, hbody, hrest⟩ := ih hscan
    exact ⟨q :: q :: body, rfl, .doubled hbody, hrest⟩
  | case3 cs hhead =>
    cases h
    exact ⟨[], rfl, .nil, hhead⟩
  | case4 => cases h
  | case5 cs d t hescape _ ih =>
    obtain ⟨ds', taken', hscan, rfl, rfl⟩ := Scan.eq_of_map_after h
    obtain ⟨body, rfl, hbody, hrest⟩ := ih hscan
    -- the text behind the sequence begins like what is left of the quoted text
    have hwhole := whole_scanQuoted q f t.rest
    rw [hscan] at hwhole
    have hhead : t.rest.head? = (body ++ [q]).head? := by cases body <;> simp [← hwhole]
    exact ⟨'\\' :: t.taken ++ body, by simp, .escape ((escape_scanEscape hescape).congr hhead) hbody, hrest⟩
  | case6 c cs hc hne ih =>
    obtain ⟨ds', taken', hscan, rfl, rfl⟩ := Scan.eq_of_map_after h
    obtain ⟨body, rfl, hbody, hrest⟩ := ih hscan
    exact ⟨c :: body, rfl, .plain hc hne hbody, hrest⟩

/-! ## Reading numbers -/

theorem literalItem_scanLiteral {d : Char} (h : scanLiteral cs = ⟨.ok d, ⟨taken, rest⟩⟩) :
    LiteralItem taken d rest := by
  unfold scanLiteral at h
  split at h
  · cases h
  · split at h
    · cases h
    · cases h
    · next hescape =>
      cases h
      exact .escape (escape_scanEscape hescape)
  · cases h
    exact .doubled
  · next hbackslash hquotes =>
    cases h
    refine .plain (fun hc => hbackslash hc) fun hc hr => ?_
    obtain ⟨cs', rfl⟩ := List.head?_eq_some_iff.1 hr
    exact hquotes cs' hc rfl

theorem isDigits_span (hc : isDigit c = true) (cs : List Char) :
    IsDigits (Split.span isDigit (c :: cs)).taken := by
  refine ⟨?_, (span_spec isDigit (c :: cs)).2.1⟩
  simp [Split.span, hc]

theorem splitSign_mem (cs : List Char) : (splitSign cs).taken ∈ [[], ['+'], ['-']] := by
  unfold splitSign
  split <;> simp

theorem isExponent_scanExponent {mark : Char} (hmark : mark ∈ ['e', 'E'])
    (h : scanExponent (front ++ [mark]) cs = ⟨.ok (kind, s), ⟨taken, rest⟩⟩) :
    ∃ es, taken = front ++ es ∧ IsExponent es ∧ kind = .float ∧ s = String.ofList taken ∧
      ∀ r ∈ rest.head?, isDigit r = false := by
  unfold scanExponent at h
  dsimp only at h
  split at h
  · cases h
  · next hne =>
    cases h
    obtain ⟨-, hdigits, hrest⟩ := span_spec isDigit (splitSign cs).rest
    refine ⟨mark :: (splitSign cs).taken ++ (Split.span isDigit (splitSign cs).rest).taken, ?_,
      ⟨mark, _, _, rfl, hmark, splitSign_mem cs, hne, hdigits⟩, rfl, rfl, hrest⟩
    simp

theorem longestMatch_scanFraction (hd : IsDigits ds) (hc : isDigit c = true)
    (h : scanFraction (ds ++ ['.']) (c :: cs) = ⟨.ok (kind, s), ⟨taken, rest⟩⟩) :
    LongestMatch kind s taken rest := by
  have hfraction := isDigits_span hc cs
  have hboth : ∀ mark ∈ ['e', 'E'], ∀ r, scanExponent (ds ++ ['.'] ++
      (Split.span isDigit (c :: cs)).taken ++ [mark]) r = ⟨.ok (kind, s), ⟨taken, rest⟩⟩ →
        LongestMatch kind s taken rest := by
    intro mark hmark r h
    obtain ⟨es, rfl, hes, rfl, rfl, hrest⟩ := isExponent_scanExponent hmark h
    refine .float ?_ hrest
    rw [List.append_assoc ds]
    exact .both hd hfraction hes
  unfold scanFraction at h
  dsimp only at h
  split at h
  · exact hboth 'e' (by simp) _ h
  · exact hboth 'E' (by simp) _ h
  · cases h
    refine .float ?_ (span_spec isDigit (c :: cs)).2.2
    show IsFloat (ds ++ ['.'] ++ _)
    rw [List.append_assoc]
    exact .fraction hd hfraction

theorem baseOf?_eq_some {base : Nat} (hd : IsDigits ds) : baseOf? ds = some base ↔ IsBase ds base := by
  have hall : ds.all (isDigitOf 10) = true :=
    List.all_eq_true.2 fun d h => isDigitOf_of_isDigit (hd.2 d h)
  rw [baseOf?, positional?, if_pos ⟨hd.1, hall⟩, Option.filter_eq_some_iff, Option.some.injEq,
    Bool.and_eq_true, decide_eq_true_eq, decide_eq_true_eq]
  exact ⟨fun h => ⟨hd, h.1, h.2⟩, fun h => ⟨h.2.1, h.2.2⟩⟩

theorem longestMatch_scanBased {base : Nat} (hb : IsBase ds base)
    (h : scanBased base (ds ++ ['\'']) cs = ⟨.ok (kind, s), ⟨taken, rest⟩⟩) :
    LongestMatch kind s taken rest := by
  unfold scanBased at h
  dsimp only at h
  split at h
  · cases h
  · next hne =>
    cases h
    obtain ⟨-, hdigits, hrest⟩ := span_spec (isDigitOf base) cs
    show LongestMatch _ (String.ofList (ds ++ ['\''] ++ _)) (ds ++ ['\''] ++ _) _
    rw [List.append_assoc]
    exact .based hb ⟨hne, hdigits⟩ hrest

theorem longestMatch_scanNumber (hc : isDigit c = true)
    (h : scanNumber (c :: cs) = ⟨.ok (kind, s), ⟨taken, rest⟩⟩) : LongestMatch kind s taken rest := by
  have hd := isDigits_span hc cs
  have hrest := (span_spec isDigit (c :: cs)).2.2
  have hexponent : ∀ mark ∈ ['e', 'E'], ∀ r, scanExponent ((Split.span isDigit (c :: cs)).taken ++
      [mark]) r = ⟨.ok (kind, s), ⟨taken, rest⟩⟩ → LongestMatch kind s taken rest := by
    intro mark hmark r h
    obtain ⟨es, rfl, hes, rfl, rfl, hr⟩ := isExponent_scanExponent hmark h
    exact .float (.exponent hd hes) hr
  have hinteger : (Split.span isDigit (c :: cs)).token .natural = ⟨.ok (kind, s), ⟨taken, rest⟩⟩ →
      ((Split.span isDigit (c :: cs)).rest.head? = some '\'' →
        (Split.span isDigit (c :: cs)).taken ≠ ['0'] ∧
          ∀ base, ¬ IsBase (Split.span isDigit (c :: cs)).taken base) →
      LongestMatch kind s taken rest := by
    intro h hquote
    cases h
    exact .decimal hd hrest hquote
  unfold scanNumber at h
  dsimp only at h
  split at h
  · next r hr =>
    split at h
    · obtain ⟨d, taken', hscan, ht, rfl⟩ := Scan.eq_of_map_after h
      cases ht
      exact .literal (literalItem_scanLiteral hscan)
    · next hzero =>
      split at h
      · next base hbase => exact longestMatch_scanBased ((baseOf?_eq_some hd).1 hbase) h
      · next hbase =>
        refine hinteger h fun _ => ⟨hzero, fun base hb => ?_⟩
        rw [(baseOf?_eq_some hd).2 hb] at hbase
        cases hbase
  · next c' r hr =>
    split at h
    · next hc' => exact longestMatch_scanFraction hd hc' h
    · split at h
      · exact hinteger h (by simp [hr])
      · cases h
  · cases h
  · exact hexponent 'e' (by simp) _ h
  · exact hexponent 'E' (by simp) _ h
  · next hquote _ _ _ _ =>
    refine hinteger h fun e => ?_
    obtain ⟨r, hr⟩ := List.head?_eq_some_iff.1 e
    exact (hquote r hr).elim

/-! ## Reading layout -/

theorem startsComment_iff (cs : List Char) :
    startsComment cs = true ↔ cs.head? = some '%' ∨ ['/', '*'] <+: cs := by
  unfold startsComment
  split
  · simp
  · simp
  · next hpercent hslash =>
    refine iff_of_false (by decide) (not_or.2 ⟨fun h => ?_, fun h => ?_⟩)
    · obtain ⟨cs', rfl⟩ := List.head?_eq_some_iff.1 h
      exact hpercent cs' rfl
    · obtain ⟨cs', rfl⟩ := h
      exact hslash cs' rfl

/-- What layout looks like from a place in it on. -/
def LayoutMode.Reads : LayoutMode → List Char → List Char → Prop
  | .between, taken, rest => IsLayoutText taken rest
  | .line, taken, rest => ('\n' ∉ taken ∧ rest = []) ∨
    ∃ cs more, taken = cs ++ '\n' :: more ∧ '\n' ∉ cs ∧ IsLayoutText more rest
  | .block depth, taken, rest => (∃ n, Nests (depth + 1) taken (n + 1)) ∧ rest = [] ∨
    ∃ cs more, taken = cs ++ more ∧ Nests (depth + 1) cs 0 ∧ IsLayoutText more rest

theorem IsLayoutText.cons {item more : List Char} (hi : LayoutItem item) (h : IsLayoutText more rest) :
    IsLayoutText (item ++ more) rest := by
  obtain ⟨items, last, rfl, hitems, hlast⟩ := h
  refine ⟨item :: items, last, by simp, fun i hm => ?_, hlast⟩
  rcases List.mem_cons.1 hm with rfl | hm
  · exact hi
  · exact hitems i hm

theorem isLayoutText_nil (rest : List Char) : IsLayoutText [] rest :=
  ⟨[], [], rfl, by simp, .inl rfl⟩

theorem reads_splitLayout (m : LayoutMode) (cs : List Char) :
    m.Reads (splitLayout m cs).taken (splitLayout m cs).rest := by
  fun_induction splitLayout m cs with
  | case1 m =>
    cases m with
    | between => exact isLayoutText_nil []
    | line => exact .inl ⟨by simp, rfl⟩
    | block depth => exact .inl ⟨⟨depth, .nil⟩, rfl⟩
  | case2 cs ih =>
    rcases ih with ⟨hline, hrest⟩ | ⟨line, more, htaken, hline, hmore⟩
    · exact ⟨[], _, rfl, by simp, .inr ⟨.line hline, hrest⟩⟩
    · have h := hmore.cons (.line hline)
      simpa [LayoutMode.Reads, Split.after, htaken] using h
  | case3 cs ih =>
    rcases ih with ⟨⟨n, hcut⟩, hrest⟩ | ⟨comment, more, htaken, hcomment, hmore⟩
    · exact ⟨[], _, rfl, by simp, .inr ⟨.block hcut, hrest⟩⟩
    · have h := hmore.cons (.block hcomment)
      simpa [LayoutMode.Reads, Split.after, htaken] using h
  | case4 c cs _ _ hlayout ih => exact IsLayoutText.cons (.char hlayout) ih
  | case5 c cs => exact isLayoutText_nil _
  | case6 c cs ih =>
    by_cases hc : c = '\n'
    · rw [if_pos hc] at ih ⊢
      exact .inr ⟨[], _, by simp [Split.after, hc], by simp, ih⟩
    · rw [if_neg hc] at ih ⊢
      rcases ih with ⟨hline, hrest⟩ | ⟨line, more, htaken, hline, hmore⟩
      · exact .inl ⟨by simpa [Split.after, eq_comm, hc] using hline, hrest⟩
      · exact .inr ⟨c :: line, more, by simp [Split.after, htaken], by simpa [eq_comm, hc] using hline,
          hmore⟩
  | case7 depth cs ih =>
    rcases ih with ⟨⟨n, hcut⟩, hrest⟩ | ⟨comment, more, htaken, hcomment, hmore⟩
    · exact .inl ⟨⟨n, .opening hcut⟩, hrest⟩
    · exact .inr ⟨'/' :: '*' :: comment, more, by simp [Split.after, htaken], .opening hcomment, hmore⟩
  | case8 cs ih => exact .inr ⟨['*', '/'], _, rfl, .closing .nil, ih⟩
  | case9 depth cs ih =>
    rcases ih with ⟨⟨n, hcut⟩, hrest⟩ | ⟨comment, more, htaken, hcomment, hmore⟩
    · exact .inl ⟨⟨n, .closing hcut⟩, hrest⟩
    · exact .inr ⟨'*' :: '/' :: comment, more, by simp [Split.after, htaken], .closing hcomment, hmore⟩
  | case10 depth c cs hopen hlast hclose ih =>
    -- what is behind the character in the comment is behind it in the text
    have hfirst : ∀ d, (splitLayout (.block depth) cs).taken.head? = some d → ∃ more, cs = d :: more := by
      intro d h
      obtain ⟨more, hmore⟩ := List.head?_eq_some_iff.1 h
      have hwhole := whole_splitLayout (.block depth) cs
      rw [Split.whole, hmore] at hwhole
      exact ⟨_, hwhole.symm⟩
    have ho : c = '/' → (splitLayout (.block depth) cs).taken.head? ≠ some '*' := by
      intro hc h
      obtain ⟨more, rfl⟩ := hfirst _ h
      exact hopen more hc rfl
    have hc : c = '*' → (splitLayout (.block depth) cs).taken.head? ≠ some '/' := by
      intro hc h
      obtain ⟨more, rfl⟩ := hfirst _ h
      cases depth with
      | zero => exact hlast more rfl hc rfl
      | succ n => exact hclose n more rfl hc rfl
    rcases ih with ⟨⟨n, hcut⟩, hrest⟩ | ⟨comment, more, htaken, hcomment, hmore⟩
    · exact .inl ⟨⟨n, .char ho hc hcut⟩, hrest⟩
    · refine .inr ⟨c :: comment, more, by simp [Split.after, htaken], .char ?_ ?_ hcomment, hmore⟩
      · exact fun e h => ho e (by simp [htaken, h])
      · exact fun e h => hc e (by simp [htaken, h])

/-- Layout is read as far as it goes. -/
theorem startsLayout_rest_splitLayout (m : LayoutMode) (cs : List Char) :
    (splitLayout m cs).rest = [] ∨ startsLayout (splitLayout m cs).rest = false := by
  fun_induction splitLayout m cs with
  | case1 => exact .inl rfl
  | case5 c cs hpercent hslash hlayout =>
    refine .inr ?_
    show startsLayout (c :: cs) = false
    rw [startsLayout, Bool.or_eq_false_iff, Bool.eq_false_iff, Bool.eq_false_iff, Ne, startsComment_iff]
    refine ⟨not_or.2 ⟨fun h => hpercent (Option.some.inj h), ?_⟩, hlayout⟩
    rintro ⟨cs', h⟩
    cases h
    exact hslash cs' rfl rfl
  | case6 c cs ih => exact ih
  | _ => assumption

/-! ## Reading symbol names -/

theorem startsComment_of_isSymbol (hc : isSymbol c = true) :
    startsComment (c :: cs) = true ↔ ['/', '*'] <+: c :: cs := by
  rw [startsComment_iff, or_iff_right]
  intro h
  cases h
  exact absurd hc (by decide)

theorem splitSymbol_eq (h : splitSymbol cs = ⟨taken, rest⟩) : (∀ d ∈ taken, isSymbol d = true) ∧
    ¬ ['/', '*'] <:+: taken ∧ ∀ r ∈ rest.head?, isSymbol r = true → ['/', '*'] <+: rest := by
  fun_induction splitSymbol cs generalizing taken with
  | case1 =>
    cases h
    simp
  | case2 c cs hc ih =>
    rw [Bool.and_eq_true, Bool.not_eq_true'] at hc
    have hwhole := whole_splitSymbol cs
    generalize splitSymbol cs = split at h ih hwhole
    obtain ⟨taken', rest'⟩ := split
    cases h
    obtain ⟨hall, hcomment, hrest⟩ := ih rfl
    refine ⟨List.forall_mem_cons.2 ⟨hc.1, hall⟩, ?_, hrest⟩
    intro hinfix
    rcases List.infix_cons_iff.1 hinfix with hprefix | hinfix
    · have hcs : ['/', '*'] <+: c :: cs := by
        rw [← hwhole]
        exact hprefix.trans (List.prefix_append _ _)
      rw [(startsComment_of_isSymbol hc.1).2 hcs] at hc
      cases hc.2
    · exact hcomment hinfix
  | case3 c cs hc =>
    cases h
    refine ⟨by simp, by simp, ?_⟩
    rintro r hr hsymbol
    cases hr
    rw [hsymbol, Bool.true_and, Bool.not_eq_true, Bool.not_eq_false'] at hc
    exact (startsComment_of_isSymbol hsymbol).1 hc

theorem endsClause_iff (cs : List Char) :
    endsClause cs = true ↔ ∀ r ∈ cs.head?, isSymbol r = true → startsComment cs = true := by
  cases cs with
  | nil => simp [endsClause]
  | cons c cs =>
    have hlayout : isSymbol c = true → isLayout c = false := by
      rw [isSymbol, isLayout, beq_iff_eq]
      intro h
      rw [h]
      rfl
    rw [endsClause, startsLayout]
    by_cases hc : isSymbol c = true
    · simp [hc, hlayout hc]
    · simp [hc]

/-! ## Reading tokens -/

/-- Brackets, quotes and names of one character are found in the table. -/
theorem ofLatin1_of_eq {k : CharClass} (h : CharClass.of c = k) (hk : k ∈ [.solo, .punctuation, .quote]) :
    c.toNat < 256 ∧ CharClass.ofLatin1 c.toNat = k := by
  rw [CharClass.of] at h
  split at h
  · next hle => exact ⟨Nat.lt_succ_of_le hle, h⟩
  · exfalso
    subst h
    revert hk
    split_ifs <;> decide

/-- The codes of these characters. -/
theorem ofLatin1_eq : ∀ n < 256, (CharClass.ofLatin1 n = .solo → n = 33 ∨ n = 59) ∧
    (CharClass.ofLatin1 n = .quote → n = 34 ∨ n = 39) ∧
    (CharClass.ofLatin1 n = .punctuation → n ∈ [37, 40, 41, 44, 91, 93, 123, 124, 125]) := by
  decide +kernel

theorem eq_of_solo (h : CharClass.of c = .solo) : c = '!' ∨ c = ';' := by
  obtain ⟨hlt, hcode⟩ := ofLatin1_of_eq h (by decide)
  exact ((ofLatin1_eq _ hlt).1 hcode).imp (fun h => Char.toNat_inj.1 h) fun h => Char.toNat_inj.1 h

theorem eq_of_quote (h : CharClass.of c = .quote) : c = '"' ∨ c = '\'' := by
  obtain ⟨hlt, hcode⟩ := ofLatin1_of_eq h (by decide)
  exact ((ofLatin1_eq _ hlt).2.1 hcode).imp (fun h => Char.toNat_inj.1 h) fun h => Char.toNat_inj.1 h

theorem mem_of_punctuation (h : CharClass.of c = .punctuation) :
    c ∈ ['%', '(', ')', ',', '[', ']', '{', '|', '}'] := by
  obtain ⟨hlt, hcode⟩ := ofLatin1_of_eq h (by decide)
  have hmem := (ofLatin1_eq _ hlt).2.2 hcode
  exact (List.mem_map_of_injective fun _ _ h => Char.toNat_inj.1 h).1 hmem

theorem longestMatch_layout (hl : startsLayout (c :: cs) = true)
    (h : (splitLayout .between (c :: cs)).token .layout = ⟨.ok (kind, s), ⟨taken, rest⟩⟩) :
    LongestMatch kind s taken rest := by
  obtain ⟨rfl, rfl, hsplit⟩ := Split.token_eq h
  have hne := taken_splitLayout_ne_nil (Bool.or_eq_true_iff.1 hl)
  have hreads := reads_splitLayout .between (c :: cs)
  have hrest : ∀ rest, rest = [] ∨ startsLayout rest = false →
      (∀ r ∈ rest.head?, isLayout r = false) ∧ startsComment rest = false := by
    rintro rest (rfl | h)
    · exact ⟨by simp, rfl⟩
    · cases rest with
      | nil => cases h
      | cons r rest =>
        rw [startsLayout, Bool.or_eq_false_iff] at h
        exact ⟨by simpa using h.2, h.1⟩
  obtain ⟨hnot, hcomment⟩ := hrest _ (startsLayout_rest_splitLayout .between (c :: cs))
  rw [hsplit] at hne hreads hnot hcomment
  exact .layout hne hreads hnot hcomment

theorem alpha_span (hc : isAlpha c = true)
    (h : Split.span isAlpha (c :: cs) = ⟨taken, rest⟩) : ∃ taken', taken = c :: taken' ∧
      (∀ d ∈ taken', isAlpha d = true) ∧ ∀ r ∈ rest.head?, isAlpha r = false := by
  rw [span_cons hc] at h
  cases h
  obtain ⟨-, hall, hrest⟩ := span_spec isAlpha cs
  exact ⟨_, rfl, hall, hrest⟩

theorem longestMatch_quoted {f : LexicalFault} (hq : q = '\'' ∧ kind = .name ∨ q = '"' ∧ kind = .string)
    (h : scanQuoted q f cs = ⟨.ok ds, ⟨taken, rest⟩⟩) :
    LongestMatch kind (String.ofList ds) (q :: taken) rest := by
  obtain ⟨body, rfl, hbody, hrest⟩ := quotedBody_scanQuoted h
  rcases hq with ⟨rfl, rfl⟩ | ⟨rfl, rfl⟩
  · exact .quoted hbody hrest
  · exact .string hbody hrest

/-- What is read as a token has the form of one, and is not shorter than it could be. -/
theorem longestMatch_scanToken (h : scanToken c cs = ⟨.ok (kind, s), ⟨taken, rest⟩⟩) :
    LongestMatch kind s taken rest := by
  unfold scanToken at h
  split at h
  · next hcomment => exact longestMatch_layout (by rw [startsLayout, hcomment, Bool.true_or]) h
  · next hcomment =>
    split at h
    · next hc => exact longestMatch_layout (by simp [startsLayout, isLayout, hc]) h
    · next hc =>
      obtain ⟨rfl, rfl, hsplit⟩ := Split.token_eq h
      have hsmall : isSmall c = true := by simp [isSmall, hc]
      obtain ⟨taken, rfl, hall, hrest⟩ := alpha_span (by simp [isAlpha, hsmall]) hsplit
      exact .word hsmall hall hrest
    · next hc =>
      obtain ⟨rfl, rfl, hsplit⟩ := Split.token_eq h
      have hcapital : isCapital c = true := by simp [isCapital, hc]
      obtain ⟨taken, rfl, hall, hrest⟩ := alpha_span (by simp [isAlpha, hcapital]) hsplit
      exact .var (.inl hcapital) hall hrest
    · next hc => exact longestMatch_scanNumber (by simp [isDigit, hc]) h
    · next hc =>
      have hsymbol : isSymbol c = true := by simp [isSymbol, hc]
      split at h
      · next hstop =>
        cases h
        exact hstop.1 ▸ .stop ((endsClause_iff cs).1 hstop.2)
      · next hstop =>
        obtain ⟨rfl, rfl, hsplit⟩ := Split.token_eq h
        obtain ⟨hall, hinfix, hrest⟩ := splitSymbol_eq hsplit
        have hne := taken_splitSymbol_ne_nil hsymbol (Bool.eq_false_iff.2 hcomment)
        have hwhole := whole_splitSymbol (c :: cs)
        rw [hsplit] at hne hwhole
        refine .symbol hne hall hinfix ?_ hrest
        rintro rfl
        cases hwhole
        refine hstop ⟨rfl, (endsClause_iff rest).2 fun r hr h => ?_⟩
        exact (startsComment_iff rest).2 (.inr (hrest r hr h))
    · next hc =>
      cases h
      exact .solo (by simp [isSolo, hc])
    · next hc =>
      cases h
      have hpercent : c ≠ '%' := by
        rintro rfl
        exact hcomment rfl
      exact .punct ((List.mem_cons.1 (mem_of_punctuation hc)).resolve_left hpercent)
    · next hc =>
      split at h
      · next hq =>
        obtain ⟨ds, taken', hscan, e, rfl⟩ := Scan.eq_of_map_after h
        cases e
        exact longestMatch_quoted (.inl ⟨hq, rfl⟩) hscan
      · next hq =>
        obtain ⟨ds, taken', hscan, e, rfl⟩ := Scan.eq_of_map_after h
        cases e
        exact longestMatch_quoted (.inr ⟨(eq_of_quote hc).resolve_right hq, rfl⟩) hscan
    · next hc =>
      split at h
      · next hunderline =>
        obtain ⟨rfl, rfl, hsplit⟩ := Split.token_eq h
        obtain ⟨taken, rfl, hall, hrest⟩ := alpha_span (by simp [isAlpha, hunderline]) hsplit
        exact .var (.inr hunderline) hall hrest
      · cases h

end PrologTerms
