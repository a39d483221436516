import PrologTerms.Proofs.Token.Exact

/-!
# Tokens in front of a line break

A token that is read at the end of a text is read in the same way if a line break follows, whatever
comes behind it. Only layout goes on: with the line break, if it is no comment in brackets that has not
been closed, and with the layout behind it.
-/

namespace PrologTerms

/-- The same division of a text that has `more` behind it. -/
def Split.before (more : List Char) (s : Split) : Split := ⟨s.taken, s.rest ++ more⟩

variable {c : Char} {cs : List Char} (more : List Char)

/-! ## Where layout begins -/

theorem startsComment_newline (cs : List Char) :
    startsComment (cs ++ '\n' :: more) = startsComment cs := by
  match cs with
  | [] => rfl
  | [c] =>
    show startsComment (c :: '\n' :: more) = _
    unfold startsComment
    split <;> simp_all
  | c :: d :: cs =>
    show startsComment (c :: d :: (cs ++ _)) = _
    unfold startsComment
    split <;> simp_all

theorem startsLayout_newline (cs : List Char) :
    startsLayout (cs ++ '\n' :: more) = startsLayout cs := by
  cases cs with
  | nil =>
    show startsLayout ('\n' :: more) = true
    rw [startsLayout, show isLayout '\n' = true by decide, Bool.or_true]
  | cons c cs =>
    have hcomment := startsComment_newline more (c :: cs)
    rw [List.cons_append] at hcomment ⊢
    rw [startsLayout, startsLayout, hcomment]

/-- What a text begins with, other than a line break, it begins with already without the line break. -/
theorem exists_of_append_newline {more r : List Char} (h : cs ++ '\n' :: more = c :: r)
    (hc : c ≠ '\n') :
    ∃ cs', cs = c :: cs' ∧ r = cs' ++ '\n' :: more := by
  cases cs with
  | nil =>
    cases h
    exact absurd rfl hc
  | cons d cs =>
    cases h
    exact ⟨cs, rfl, rfl⟩

/-! ## Layout -/

/-- Where in layout a text leads that is all layout, from a place in layout before it. -/
def LayoutMode.behind : LayoutMode → List Char → LayoutMode
  | m, [] => m
  | .between, '%' :: cs => behind .line cs
  | .between, '/' :: '*' :: cs => behind (.block 0) cs
  | .between, _ :: cs => behind .between cs
  | .line, c :: cs => behind (if c = '\n' then .between else .line) cs
  | .block depth, '/' :: '*' :: cs => behind (.block (depth + 1)) cs
  | .block 0, '*' :: '/' :: cs => behind .between cs
  | .block (depth + 1), '*' :: '/' :: cs => behind (.block depth) cs
  | .block depth, _ :: cs => behind (.block depth) cs

theorem Split.after_if_rest (front cs more : List Char) (s t : Split) :
    (if s.rest = [] then t.after cs else s.before more).after front =
      if (s.after front).rest = [] then t.after (front ++ cs) else (s.after front).before more := by
  have hrest : (s.after front).rest = s.rest := rfl
  rw [hrest]
  split
  · exact Split.after_after front cs t
  · rfl

/-- If a text is all layout, what comes behind it is read from where in layout the text leads; if not, it
makes no difference to the layout at the front. -/
theorem splitLayout_newline (m : LayoutMode) (cs : List Char) : splitLayout m (cs ++ '\n' :: more) =
    if (splitLayout m cs).rest = [] then (splitLayout (m.behind cs) ('\n' :: more)).after cs
    else (splitLayout m cs).before ('\n' :: more) := by
  fun_induction splitLayout m cs with
  | case1 m =>
    rw [if_pos rfl, List.nil_append, LayoutMode.behind]
    rfl
  | case4 c cs hpercent hslash hlayout ih =>
    rw [List.cons_append, splitLayout_char hlayout, ih, Split.after_if_rest, LayoutMode.behind]
    · rfl
    · exact hpercent
    · exact hslash
  | case5 c cs hpercent hslash hlayout =>
    rw [List.cons_append, splitLayout, if_neg hlayout, if_neg (List.cons_ne_nil c cs)]
    · rfl
    · exact hpercent
    · rintro r hc hr
      obtain ⟨cs', hcs, -⟩ := exists_of_append_newline hr (by decide)
      exact hslash cs' hc hcs
  | case10 depth c cs hopen hlast hclose ih =>
    rw [List.cons_append, splitLayout, ih, Split.after_if_rest, LayoutMode.behind]
    · rfl
    · exact hopen
    · exact hlast
    · exact hclose
    · rintro r hc hr
      obtain ⟨cs', hcs, -⟩ := exists_of_append_newline hr (by decide)
      exact hopen cs' hc hcs
    · rintro r hd hc hr
      obtain ⟨cs', hcs, -⟩ := exists_of_append_newline hr (by decide)
      exact hlast cs' hd hc hcs
    · rintro n r hd hc hr
      obtain ⟨cs', hcs, -⟩ := exists_of_append_newline hr (by decide)
      exact hclose n cs' hd hc hcs
  | _ =>
    next ih =>
    simp only [List.cons_append, splitLayout, ih, Split.after_if_rest, LayoutMode.behind]
    rfl

/-! ## Tokens -/

/-- A line break does not replace what follows a token, if anything does. -/
theorem replaces_newline (rest : List Char) : Replaces rest (rest ++ '\n' :: more) := by
  have hlayout := startsLayout_newline more rest
  cases rest with
  | nil => exact .inl hlayout
  | cons r rest =>
    cases h : startsLayout (r :: rest) with
    | true => exact .inl (hlayout.trans h)
    | false => exact .inr ⟨rfl, h⟩

/-- A token that is no layout is read in the same way in front of a line break. -/
theorem scanToken_newline (hl : startsLayout (c :: cs) = false) {kind : TokenKind} {s : String} {split : Split}
    (h : scanToken c cs = ⟨.ok (kind, s), split⟩) :
    scanToken c (cs ++ '\n' :: more) = ⟨.ok (kind, s), split.before ('\n' :: more)⟩ := by
  obtain ⟨taken, rest⟩ := split
  obtain ⟨hwhole, hscan⟩ := scansAs_of_scanToken h
  have hkind : kind ≠ .layout := by
    rw [Ne, hscan.layout_iff, ← hwhole, hl]
    exact Bool.false_ne_true
  have hscan' := hscan.replace hkind (replaces_newline more rest) fun hd r hr => by
    -- a point behind digits is in front of layout already
    obtain ⟨cs', rfl, rfl⟩ := exists_of_append_newline hr (by decide)
    obtain ⟨hne, hlayout⟩ := hscan.uncut.point hd cs' rfl
    exact ⟨List.append_ne_nil_of_left_ne_nil hne _, (startsLayout_newline more cs').trans hlayout⟩
  obtain ⟨d, ds, rfl, hscan'⟩ := hscan'
  have hcs : cs = ds ++ rest := (List.cons.inj hwhole).2
  rw [(List.cons.inj hwhole).1, hcs, List.append_assoc]
  exact hscan'

end PrologTerms
