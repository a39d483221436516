import PrologTerms.Proofs.Token.Longest
import Mathlib.Data.Bool.AllAny

/-!
# Parts of tokens are read as the grammar says

What the grammar allows for a part of a token is read as a whole, with what it stands for: what stands
between quotes, digits with what makes them a number, comments, and symbols. A number is cut off only by a
point or an exponent mark.
-/

namespace PrologTerms

variable {c q : Char} {cs ds rest more : List Char} {p : Char → Bool}

/-! ## Rows of characters -/

theorem span_append (h : ∀ c ∈ cs, p c = true) (hr : ∀ r ∈ rest.head?, p r = false) :
    Split.span p (cs ++ rest) = ⟨cs, rest⟩ := by
  have hrest : rest.takeWhile p = [] ∧ rest.dropWhile p = rest := by
    cases rest with
    | nil => exact ⟨rfl, rfl⟩
    | cons r rs =>
      have hp := hr r rfl
      exact ⟨List.takeWhile_cons_of_neg (by simp [hp]), List.dropWhile_cons_of_neg (by simp [hp])⟩
  rw [Split.span, List.takeWhile_append_of_pos h, List.dropWhile_append_of_pos h, hrest.1, hrest.2,
    List.append_nil]

/-- What comes first depends on what follows only if there is nothing. -/
theorem head?_append_congr {rest' : List Char} (h : rest.head? = rest'.head?) :
    (cs ++ rest).head? = (cs ++ rest').head? := by
  cases cs with
  | nil => exact h
  | cons c cs => rfl

/-! ## Between quotes -/

theorem isDigit_of_isOctal (h : isOctal c = true) : isDigit c = true := by
  rw [isOctal, Bool.and_eq_true, decide_eq_true_eq, decide_eq_true_eq] at h
  rw [isDigit_iff, Char.isDigit, Bool.and_eq_true, decide_eq_true_eq, decide_eq_true_eq]
  exact ⟨h.1, UInt32.le_trans h.2 (by decide)⟩

theorem mem_of_escapeLetter? (h : escapeLetter? c ≠ none) :
    c ∈ ['b', 't', 'n', 'v', 'f', 'r', 'e', 'd', 'a'] := by
  unfold escapeLetter? at h
  split at h <;> simp_all

/-- Layout characters and octal digits are no letters. -/
theorem escapeLetter?_eq_none (h : isLayout c = true ∨ isOctal c = true) :
    escapeLetter? c = none ∧ c ∉ ['x', 'c', '^'] := by
  have hnot : ∀ d ∈ ['b', 't', 'n', 'v', 'f', 'r', 'e', 'd', 'a', 'x', 'c', '^'],
      ¬ (isLayout d = true ∨ isOctal d = true) := List.all_iff_forall_prop.1 (by decide)
  refine ⟨by_contra fun hl => hnot c ?_ h, fun hm => hnot c ?_ h⟩
  · exact List.mem_append_left ['x', 'c', '^'] (mem_of_escapeLetter? hl)
  · exact List.mem_append_right ['b', 't', 'n', 'v', 'f', 'r', 'e', 'd', 'a'] hm

/-- Octal digits are read up to two, or to what is none. -/
theorem takeWhile_take_append (hlen : cs.length ≤ 2) (hcs : ∀ c ∈ cs, p c = true)
    (hr : cs.length < 2 → ∀ r ∈ rest.head?, p r = false) :
    ((cs ++ rest).take 2).takeWhile p = cs := by
  match cs with
  | [] =>
    cases rest with
    | nil => rfl
    | cons r rs => simp [hr (by simp) r rfl]
  | [a] =>
    have ha := hcs a List.mem_cons_self
    cases rest with
    | nil => simp [ha]
    | cons r rs => simp [ha, hr (by simp) r rfl]
  | [a, b] => simp [hcs a (by simp), hcs b (by simp)]
  | a :: b :: c :: cs => simp at hlen

theorem Escape.scan {d : Option Char} (h : Escape cs d rest) :
    scanEscape (cs ++ rest) = ⟨.ok d, ⟨cs, rest⟩⟩ := by
  have hx : escapeLetter? 'x' = none := by decide
  have hcontrol : escapeLetter? '^' = none := by decide
  cases h with
  | letter h => simp only [List.cons_append, scanEscape, h]; rfl
  | hex hc hd => simp only [List.cons_append, scanEscape, hx, if_true, scanHexPair, hc, hd]; rfl
  | delete => rfl
  | @capital c rest h =>
    have hne : c ≠ '?' := by
      rintro rfl
      exact absurd h (by decide)
    simp only [List.cons_append, scanEscape, hcontrol, scanControl, if_neg hne, if_pos h]
    rfl
  | @small c rest h =>
    have hne : c ≠ '?' := by
      rintro rfl
      exact absurd h (by decide)
    have hcapital : ¬ ('A' ≤ c ∧ c ≤ 'Z') := by
      rintro ⟨-, hle⟩
      exact absurd (Char.le_trans h.1 hle) (by decide)
    simp only [List.cons_append, scanEscape, hcontrol, scanControl, if_neg hne, if_neg hcapital,
      if_pos h]
    rfl
  | @octal cs rest hne hlen hcs hr =>
    obtain ⟨c, cs, rfl⟩ := List.exists_cons_of_ne_nil hne
    obtain ⟨hc, hcs⟩ := List.forall_mem_cons.1 hcs
    obtain ⟨hl, hnot⟩ := escapeLetter?_eq_none (.inr hc)
    simp only [List.mem_cons, not_or] at hnot
    have hmore := takeWhile_take_append (Nat.le_of_succ_le_succ hlen) hcs
      fun hlt => hr (Nat.succ_lt_succ hlt)
    simp only [List.cons_append, scanEscape, hl, if_neg hnot.1, if_neg hnot.2.1, if_neg hnot.2.2.1,
      if_pos hc, scanOctal, hmore, List.drop_left]
    rfl
  | @layout c rest h =>
    obtain ⟨hl, hnot⟩ := escapeLetter?_eq_none (.inl h)
    simp only [List.mem_cons, not_or] at hnot
    have hoctal : isOctal c = false := by
      by_contra ho
      have hd := isDigit_of_isOctal (Bool.of_not_eq_false ho)
      rw [isDigit, beq_iff_eq] at hd
      rw [isLayout, hd] at h
      cases h
    simp only [List.cons_append, scanEscape, hl, if_neg hnot.1, if_neg hnot.2.1, if_neg hnot.2.2.1,
      hoctal, if_pos h]
    rfl
  | skip hcs hr =>
    have hspan := span_append hcs hr
    have hc : escapeLetter? 'c' = none := by decide
    simp only [List.cons_append, scanEscape, hc, hspan]
    rfl
  | self hl hc ho hs =>
    simp only [List.mem_cons, not_or] at hc
    simp only [List.cons_append, scanEscape, hl, if_neg hc.1, if_neg hc.2.1, if_neg hc.2.2.1, ho, hs]
    rfl

theorem scanQuoted_close {f : LexicalFault} (h : rest.head? ≠ some q) :
    scanQuoted q f (q :: rest) = ⟨.ok [], ⟨[q], rest⟩⟩ := by
  rw [scanQuoted, if_pos rfl, if_neg h]
  rfl

theorem QuotedBody.scan {f : LexicalFault} (h : QuotedBody q cs ds) (hq : q ≠ '\\')
    (hr : rest.head? ≠ some q) :
    scanQuoted q f (cs ++ q :: rest) = ⟨.ok ds, ⟨cs ++ [q], rest⟩⟩ := by
  induction h with
  | nil => exact scanQuoted_close hr
  | plain hc hb _ ih =>
    rw [List.cons_append, scanQuoted, if_neg hc, if_neg hb, ih]
    rfl
  | @doubled cs ds _ ih =>
    have hhead : (q :: cs ++ q :: rest).head? = some q := rfl
    rw [List.cons_append, scanQuoted, if_pos rfl, if_pos hhead]
    simp only [List.cons_append, List.tail_cons, ih]
    rfl
  | @escape es cs ds d he _ ih =>
    have he' : Escape es d (cs ++ q :: rest) := he.congr (head?_append_congr rfl)
    have hescape := he'.scan
    rw [List.append_assoc, List.cons_append, scanQuoted, if_neg hq.symm, if_pos rfl]
    split
    · next e =>
      rw [hescape] at e
      cases e
    · next e =>
      rw [hescape] at e
      cases e
      simp only [ih, Scan.map, Scan.after, Split.after, Except.map, List.cons_append, List.append_assoc]

/-! ## Numbers -/

theorem LiteralItem.scan {d : Char} (h : LiteralItem cs d rest) :
    scanLiteral (cs ++ rest) = ⟨.ok d, ⟨cs, rest⟩⟩ := by
  cases h with
  | @plain c rest hc hr =>
    unfold scanLiteral
    split
    · next e => cases e
    · next e =>
      cases e
      exact absurd rfl hc
    · next e =>
      cases e
      exact absurd rfl (hr rfl)
    · next e =>
      cases e
      rfl
  | doubled => rfl
  | escape h => simp only [List.cons_append, scanLiteral, h.scan]; rfl

/-- A row of digits does not begin with a sign. -/
theorem splitSign_append {sign : List Char} (hs : sign ∈ [[], ['+'], ['-']]) (hd : IsDigits ds) :
    splitSign (sign ++ (ds ++ rest)) = ⟨sign, ds ++ rest⟩ := by
  simp only [List.mem_cons, List.not_mem_nil, or_false] at hs
  rcases hs with rfl | rfl | rfl
  · obtain ⟨d, ds, rfl⟩ := List.exists_cons_of_ne_nil hd.1
    have hdigit := hd.2 d List.mem_cons_self
    unfold splitSign
    split
    · next e =>
      cases e
      exact absurd hdigit (by decide)
    · next e =>
      cases e
      exact absurd hdigit (by decide)
    · rfl
  · rfl
  · rfl

theorem IsExponent.scan {es : List Char} (h : IsExponent es) (front : List Char)
    (hr : ∀ r ∈ rest.head?, isDigit r = false) : ∃ mark more, es ++ rest = mark :: more ∧
      mark ∈ ['e', 'E'] ∧ scanExponent (front ++ [mark]) more =
        ⟨.ok (.float, String.ofList (front ++ es)), ⟨front ++ es, rest⟩⟩ := by
  obtain ⟨mark, sign, digits, rfl, hmark, hsign, hd⟩ := h
  refine ⟨mark, sign ++ (digits ++ rest), by simp, hmark, ?_⟩
  rw [scanExponent, splitSign_append hsign hd]
  dsimp only
  rw [span_append hd.2 hr, if_neg hd.1]
  simp [Split.token, Split.after]

/-- Behind a quote, digits are a base, or announce a character. -/
theorem scanNumber_quote (hd : IsDigits ds) (cs : List Char) : scanNumber (ds ++ '\'' :: cs) =
    if ds = ['0'] then
      ((scanLiteral cs).after ['0', '\'']).map fun c => (.natural, toString c.toNat)
    else
      match baseOf? ds with
      | some base => scanBased base (ds ++ ['\'']) cs
      | none => Split.token .natural ⟨ds, '\'' :: cs⟩ := by
  have hquote : ∀ r ∈ ('\'' :: cs).head?, isDigit r = false := by
    intro r hr
    cases hr
    decide
  rw [scanNumber, span_append hd.2 hquote]
  rfl

/-- A point behind digits is a decimal point in front of a digit, and a full stop in front of layout. -/
theorem scanNumber_point (hd : IsDigits ds) (c : Char) (cs : List Char) :
    scanNumber (ds ++ '.' :: c :: cs) =
      if isDigit c then scanFraction (ds ++ ['.']) (c :: cs)
      else if startsLayout (c :: cs) then Split.token .natural ⟨ds, '.' :: c :: cs⟩
      else .fail .missingFraction (ds ++ ['.']) (c :: cs) := by
  have hpoint : ∀ r ∈ ('.' :: c :: cs).head?, isDigit r = false := by
    intro r hr
    cases hr
    decide
  rw [scanNumber, span_append hd.2 hpoint]
  rfl

/-- An exponent mark is a letter. -/
theorem of_mem_marks (hc : c ∈ ['e', 'E']) : isAlpha c = true ∧ isDigit c = false := by
  simp only [List.mem_cons, List.not_mem_nil, or_false] at hc
  rcases hc with rfl | rfl <;> decide

theorem scanNumber_mark (hd : IsDigits ds) (hc : c ∈ ['e', 'E']) (cs : List Char) :
    scanNumber (ds ++ c :: cs) = scanExponent (ds ++ [c]) cs := by
  have hmark : ∀ r ∈ (c :: cs).head?, isDigit r = false := by
    intro r hr
    cases hr
    exact (of_mem_marks hc).2
  rw [scanNumber, span_append hd.2 hmark]
  simp only [List.mem_cons, List.not_mem_nil, or_false] at hc
  rcases hc with rfl | rfl <;> rfl

theorem scanFraction_mark (front : List Char) (hd : IsDigits ds) (hc : c ∈ ['e', 'E']) (cs : List Char) :
    scanFraction front (ds ++ c :: cs) = scanExponent (front ++ ds ++ [c]) cs := by
  have hmark : ∀ r ∈ (c :: cs).head?, isDigit r = false := by
    intro r hr
    cases hr
    exact (of_mem_marks hc).2
  rw [scanFraction, span_append hd.2 hmark]
  simp only [List.mem_cons, List.not_mem_nil, or_false] at hc
  rcases hc with rfl | rfl <;> rfl

/-- Digits with a fraction behind them. -/
def IsFraction (cs : List Char) : Prop :=
  ∃ ds fs, cs = ds ++ '.' :: fs ∧ IsDigits ds ∧ IsDigits fs

/-- A number is not cut off by what follows it. -/
structure Uncut (cs rest : List Char) : Prop where
  /-- Behind digits there is no point, except in front of layout. -/
  point : IsDigits cs → ∀ more, rest = '.' :: more → more ≠ [] ∧ startsLayout more = true
  /-- Behind digits, and behind a fraction, there is no exponent mark. -/
  mark : IsDigits cs ∨ IsFraction cs → ∀ r ∈ rest.head?, r ∉ ['e', 'E']

/-- Where layout begins, there is no digit. -/
theorem class_of_startsLayout (h : startsLayout rest = true) :
    ∀ r ∈ rest.head?, CharClass.of r ∈ [.layout, .punctuation, .symbol] := by
  cases rest with
  | nil => simp
  | cons r rest =>
    intro r' hr
    cases hr
    rw [startsLayout, Bool.or_eq_true, startsComment_iff] at h
    rcases h with (h | ⟨rest', h⟩) | h
    · cases h
      decide
    · cases h
      decide
    · rw [isLayout, beq_iff_eq] at h
      rw [h]
      decide

theorem scanNumber_decimal (h : IsDigits cs) (hr : ∀ r ∈ rest.head?, isDigit r = false)
    (hquote : rest.head? = some '\'' → cs ≠ ['0'] ∧ ∀ base, ¬ IsBase cs base) (hu : Uncut cs rest) :
    scanNumber (cs ++ rest) = ⟨.ok (.natural, String.ofList cs), ⟨cs, rest⟩⟩ := by
  rw [scanNumber, span_append h.2 hr]
  dsimp only
  split
  · obtain ⟨hzero, hbase⟩ := hquote rfl
    rw [if_neg hzero]
    split
    · next base hb => exact absurd ((baseOf?_eq_some h).1 hb) (hbase base)
    · rfl
  · next c r =>
    obtain ⟨-, hlayout⟩ := hu.point h _ rfl
    have hdigit : isDigit c = false := by
      have hclass := class_of_startsLayout hlayout c rfl
      rw [isDigit, beq_eq_false_iff_ne]
      intro e
      rw [e] at hclass
      exact absurd hclass (by decide)
    rw [hdigit, if_neg (by decide), if_pos hlayout]
    rfl
  · exact absurd rfl (hu.point h _ rfl).1
  · exact absurd (List.mem_cons_self) (hu.mark (.inl h) 'e' rfl)
  · exact absurd (by simp) (hu.mark (.inl h) 'E' rfl)
  · rfl

theorem scanNumber_based {base : Nat} {bs : List Char} (hb : IsBase bs base) (hd : IsDigitsOf base ds)
    (hr : ∀ r ∈ rest.head?, isDigitOf base r = false) : scanNumber (bs ++ '\'' :: ds ++ rest) =
      ⟨.ok (.natural, String.ofList (bs ++ '\'' :: ds)), ⟨bs ++ '\'' :: ds, rest⟩⟩ := by
  have hzero : bs ≠ ['0'] := by
    rintro rfl
    obtain ⟨-, hvalue, htwo, -⟩ := hb
    rw [← hvalue] at htwo
    exact absurd htwo (by decide)
  rw [List.append_assoc, List.cons_append, scanNumber_quote hb.1, if_neg hzero,
    (baseOf?_eq_some hb.1).2 hb]
  dsimp only
  rw [scanBased, span_append hd.2 hr, if_neg hd.1]
  simp [Split.token, Split.after]

theorem isDigits_zero : IsDigits ['0'] :=
  ⟨List.cons_ne_nil _ _, List.forall_mem_singleton.2 (by decide)⟩

theorem scanNumber_literal {d : Char} (h : LiteralItem cs d rest) :
    scanNumber ('0' :: '\'' :: cs ++ rest) =
      ⟨.ok (.natural, toString d.toNat), ⟨'0' :: '\'' :: cs, rest⟩⟩ := by
  have hquote := scanNumber_quote isDigits_zero (cs ++ rest)
  rw [if_pos rfl, h.scan] at hquote
  exact hquote

theorem scanNumber_float (h : IsFloat cs) (hr : ∀ r ∈ rest.head?, isDigit r = false)
    (hu : Uncut cs rest) :
    scanNumber (cs ++ rest) = ⟨.ok (.float, String.ofList cs), ⟨cs, rest⟩⟩ := by
  cases h with
  | @fraction ds fs hd hf =>
    obtain ⟨f, fs, rfl⟩ := List.exists_cons_of_ne_nil hf.1
    have hmark := hu.mark (.inr ⟨_, _, rfl, hd, hf⟩)
    rw [List.append_assoc, List.cons_append, List.cons_append, scanNumber_point hd,
      if_pos (hf.2 f List.mem_cons_self), ← List.cons_append, scanFraction, span_append hf.2 hr]
    dsimp only
    split
    · exact absurd List.mem_cons_self (hmark 'e' rfl)
    · exact absurd (by simp) (hmark 'E' rfl)
    · simp [Split.token, Split.after]
  | @exponent ds es hd he =>
    obtain ⟨mark, more, hes, hmark, hscan⟩ := he.scan ds hr
    rw [List.append_assoc, hes, scanNumber_mark hd hmark, hscan]
  | @both ds fs es hd hf he =>
    obtain ⟨mark, more, hes, hmark, hscan⟩ := he.scan (ds ++ ['.'] ++ fs) hr
    obtain ⟨f, fs, rfl⟩ := List.exists_cons_of_ne_nil hf.1
    rw [List.append_assoc, hes, List.append_assoc, List.cons_append, List.cons_append,
      scanNumber_point hd, if_pos (hf.2 f List.mem_cons_self), ← List.cons_append,
      scanFraction_mark _ hf hmark, hscan]
    simp

/-! ## Layout -/

theorem Split.after_after (front cs : List Char) (s : Split) :
    (s.after cs).after front = s.after (front ++ cs) := by
  rw [Split.after, Split.after, Split.after, List.append_assoc]

theorem startsComment_cons (h₁ : c ≠ '%') (h₂ : c ≠ '/') (cs : List Char) :
    startsComment (c :: cs) = false := by
  unfold startsComment
  split
  · next h =>
    cases h
    exact absurd rfl h₁
  · next h =>
    cases h
    exact absurd rfl h₂
  · rfl

/-- Only a symbol and the percent sign can begin a comment. -/
theorem startsComment_of_class {k : CharClass} (h : CharClass.of c = k) (h₁ : k ≠ .punctuation)
    (h₂ : k ≠ .symbol) (cs : List Char) : startsComment (c :: cs) = false := by
  refine startsComment_cons ?_ ?_ cs
  · rintro rfl
    exact h₁ (h ▸ by decide)
  · rintro rfl
    exact h₂ (h ▸ by decide)

/-- A comment in a line is passed with the line. -/
theorem splitLayout_line (h : '\n' ∉ cs) (more : List Char) :
    splitLayout .line (cs ++ '\n' :: more) = (splitLayout .between more).after (cs ++ ['\n']) := by
  induction cs with
  | nil => rw [List.nil_append, splitLayout_line_cons, if_pos rfl, List.nil_append]
  | cons c cs ih =>
    rw [List.mem_cons, not_or] at h
    rw [List.cons_append, splitLayout_line_cons, if_neg (Ne.symm h.1), ih h.2, Split.after_after]
    rfl

theorem splitLayout_line_cut (h : '\n' ∉ cs) : splitLayout .line cs = ⟨cs, []⟩ := by
  induction cs with
  | nil => rfl
  | cons c cs ih =>
    rw [List.mem_cons, not_or] at h
    rw [splitLayout_line_cons, if_neg (Ne.symm h.1), ih h.2]
    rfl

theorem Nests.eq_zero {m n : Nat} (h : Nests m cs n) (hm : m = 0) : cs = [] ∧ n = 0 := by
  cases h with
  | nil => exact ⟨rfl, hm⟩
  | _ => cases hm

/-- A comment in brackets is passed with all comments in it. -/
theorem Nests.splitLayout_closed {m : Nat} (h : Nests (m + 1) cs 0) (more : List Char) :
    splitLayout (.block m) (cs ++ more) = (splitLayout .between more).after cs := by
  generalize hd : m + 1 = d at h
  generalize hn : 0 = n at h
  induction h generalizing m with
  | nil => omega
  | @opening d n cs _ ih =>
    cases hd
    rw [List.cons_append, List.cons_append, splitLayout_block_opening, ih rfl hn, Split.after_after]
    rfl
  | @closing d n cs h ih =>
    cases hd
    cases d with
    | zero =>
      obtain ⟨rfl, -⟩ := h.eq_zero rfl
      exact splitLayout_block_last more
    | succ d =>
      rw [List.cons_append, List.cons_append, splitLayout_block_closing, ih rfl hn, Split.after_after]
      rfl
  | @char d n c cs ho hc h ih =>
    cases hd
    subst hn
    have hhead : (cs ++ more).head? = cs.head? := by
      cases cs with
      | nil => cases h
      | cons => rfl
    rw [List.cons_append, splitLayout_block_char (by rwa [hhead]) (by rwa [hhead]), ih rfl rfl,
      Split.after_after]
    rfl

/-- A comment in brackets that is not closed is passed to the end of the text. -/
theorem Nests.splitLayout_cut {m n : Nat} (h : Nests (m + 1) cs (n + 1)) :
    splitLayout (.block m) cs = ⟨cs, []⟩ := by
  generalize hd : m + 1 = d at h
  generalize hn : n + 1 = k at h
  induction h generalizing m with
  | nil => rfl
  | @opening d n cs _ ih =>
    cases hd
    rw [splitLayout_block_opening, ih rfl hn]
    rfl
  | @closing d k cs h ih =>
    cases hd
    cases d with
    | zero => exact absurd (hn.trans (h.eq_zero rfl).2) (Nat.succ_ne_zero n)
    | succ d =>
      rw [splitLayout_block_closing, ih rfl hn]
      rfl
  | @char d k c cs ho hc h ih =>
    cases hd
    rw [splitLayout_block_char ho hc, ih rfl hn]
    rfl

theorem LayoutItem.splitLayout {item : List Char} (h : LayoutItem item) (more : List Char) :
    splitLayout .between (item ++ more) = (splitLayout .between more).after item := by
  cases h with
  | char h => exact splitLayout_char h more
  | @line cs h =>
    rw [List.append_assoc, List.singleton_append, List.cons_append, splitLayout_between_percent,
      splitLayout_line h, Split.after_after]
    rfl
  | block h =>
    rw [List.cons_append, List.cons_append, splitLayout_between_opening, h.splitLayout_closed,
      Split.after_after]
    rfl

theorem CutComment.splitLayout (h : CutComment cs) : splitLayout .between cs = ⟨cs, []⟩ := by
  cases h with
  | line h =>
    rw [splitLayout_between_percent, splitLayout_line_cut h]
    rfl
  | block h =>
    rw [splitLayout_between_opening, h.splitLayout_cut]
    rfl

/-- Where no layout comes, none is taken. -/
theorem splitLayout_between (hr : rest = [] ∨ startsLayout rest = false) :
    splitLayout .between rest = ⟨[], rest⟩ := by
  rcases hr with rfl | hr
  · rfl
  cases rest with
  | nil => rfl
  | cons r rs =>
    rw [startsLayout, Bool.or_eq_false_iff] at hr
    obtain ⟨h₁, h₂⟩ := hr
    rw [splitLayout.eq_def]
    split
    · next e => cases e
    · next e => cases e; cases h₁
    · next e => cases e; cases h₁
    · next e =>
      cases e
      rw [h₂]
      rfl
    all_goals next e _ => cases e

theorem IsLayoutText.splitLayout (h : IsLayoutText cs rest) (hr : rest = [] ∨ startsLayout rest = false) :
    splitLayout .between (cs ++ rest) = ⟨cs, rest⟩ := by
  obtain ⟨items, last, rfl, hitems, hlast⟩ := h
  induction items with
  | nil =>
    rcases hlast with rfl | ⟨hcut, rfl⟩
    · exact splitLayout_between hr
    · rw [List.flatten_nil, List.nil_append, List.append_nil, hcut.splitLayout]
  | cons item items ih =>
    obtain ⟨hitem, hitems⟩ := List.forall_mem_cons.1 hitems
    rw [List.flatten_cons, List.append_assoc, List.append_assoc, hitem.splitLayout, ← List.append_assoc,
      ih hitems, Split.after, List.append_assoc]

theorem LayoutItem.startsLayout {item : List Char} (h : LayoutItem item) (more : List Char) :
    startsLayout (item ++ more) = true := by
  cases h with
  | char h => rw [List.singleton_append, PrologTerms.startsLayout, h, Bool.or_true]
  | line => rfl
  | block => rfl

theorem IsLayoutText.startsLayout (h : IsLayoutText cs rest) (hne : cs ≠ []) (more : List Char) :
    startsLayout (cs ++ more) = true := by
  obtain ⟨items, last, rfl, hitems, hlast⟩ := h
  cases items with
  | nil =>
    rcases hlast with rfl | ⟨hcut, -⟩
    · exact absurd rfl hne
    · cases hcut with
      | line => rfl
      | block => rfl
  | cons item items =>
    rw [List.flatten_cons, List.append_assoc, List.append_assoc]
    exact (hitems item List.mem_cons_self).startsLayout _

/-! ## Symbol names -/

/-- No comment begins inside a symbol name, nor where it ends. -/
theorem startsComment_append (hc : isSymbol c = true) (h : ¬ ['/', '*'] <:+: c :: cs)
    (hr : ∀ r ∈ rest.head?, isSymbol r = true → ['/', '*'] <+: rest) :
    startsComment (c :: (cs ++ rest)) = false := by
  rw [Bool.eq_false_iff, Ne, startsComment_of_isSymbol hc]
  rintro ⟨more, e⟩
  obtain ⟨hslash, htail⟩ := List.cons.inj e
  cases cs with
  | nil =>
    have hrest : '*' :: more = rest := htail
    obtain ⟨more', e'⟩ := hr '*' (by rw [← hrest]; rfl) (by decide)
    rw [← hrest] at e'
    cases e'
  | cons d cs =>
    obtain ⟨hstar, -⟩ := List.cons.inj htail
    exact h ⟨[], cs, by rw [← hslash, ← hstar]; rfl⟩

theorem splitSymbol_append (hcs : ∀ d ∈ cs, isSymbol d = true) (h : ¬ ['/', '*'] <:+: cs)
    (hr : ∀ r ∈ rest.head?, isSymbol r = true → ['/', '*'] <+: rest) :
    splitSymbol (cs ++ rest) = ⟨cs, rest⟩ := by
  induction cs with
  | nil =>
    cases rest with
    | nil => rfl
    | cons r rs =>
      rw [List.nil_append, splitSymbol, if_neg]
      rw [Bool.and_eq_true, Bool.not_eq_true', not_and, Bool.not_eq_false]
      exact fun hs => (startsComment_of_isSymbol hs).2 (hr r rfl hs)
  | cons c cs ih =>
    have hc := hcs c List.mem_cons_self
    rw [List.cons_append, splitSymbol, startsComment_append hc h hr, hc, if_pos (by decide),
      ih (fun d hd => hcs d (List.mem_cons_of_mem c hd)) fun hi => h (List.infix_cons hi)]
    rfl

/-- A symbol name that is no point is not taken for a full stop. -/
theorem endsClause_append (hc : isSymbol c = true) (h : ¬ ['/', '*'] <:+: c :: cs)
    (hr : ∀ r ∈ rest.head?, isSymbol r = true → ['/', '*'] <+: rest) :
    endsClause (c :: cs ++ rest) = false := by
  rw [Bool.eq_false_iff, Ne, endsClause_iff]
  intro hend
  have hcomment := hend c rfl hc
  rw [List.cons_append, startsComment_append hc h hr] at hcomment
  cases hcomment

end PrologTerms
