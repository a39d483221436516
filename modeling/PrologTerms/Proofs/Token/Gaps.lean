import PrologTerms.Proofs.Pairwise
import PrologTerms.Proofs.Token.Contents
import PrologTerms.Proofs.Token.Tiling

/-!
# Layout between tokens

A text without errors is a row of words, each of which is read as a token, with gaps between them. If the
gaps are filled with other layout, also those that are empty, then the words are read as before.
-/

namespace PrologTerms

/-! ## Gaps and what fills them -/

/-- The ranges between ranges that lie one behind the other, from one offset to another one. -/
def Span.gaps : Nat → List Span → Nat → List Span
  | a, [], b => [⟨a, b⟩]
  | a, s :: ss, b => ⟨a, s.start⟩ :: gaps s.stop ss b

/-- Some layout, without a comment that is cut off. -/
def CompleteLayout (cs : List Char) : Prop :=
  cs ≠ [] ∧ ∃ items, cs = List.flatten items ∧ ∀ item ∈ items, LayoutItem item

/-- The gap may be filled with this: complete layout, or nothing where there is nothing. -/
def Span.FilledBy (s : Span) (g : String) : Prop :=
  CompleteLayout g.toList ∨ s.isEmpty = true ∧ g = ""

/-- Pieces of text with gaps between them: one in front of them, and one behind each. -/
def joined (gap : String) (pieces gaps : List String) : String :=
  gap ++ String.join (List.zipWith (· ++ ·) pieces gaps)

theorem joined_cons (gap gap' piece : String) (pieces gaps : List String) :
    joined gap (piece :: pieces) (gap' :: gaps) = gap ++ piece ++ joined gap' pieces gaps := by
  rw [joined, joined, List.zipWith_cons_cons, String.join_cons, String.append_assoc, String.append_assoc]

/-- A gap may become another one: complete layout, or none if there was none. -/
def Refills (cs cs' : List Char) : Prop := CompleteLayout cs' ∨ cs = [] ∧ cs' = []

/-- The range has the length of the text. -/
def Span.Measures (s : Span) (cs : List Char) : Prop := s.start + utf8Length cs = s.stop

/-- All the layout in front of `rest`, which may be none. -/
def IsGap (cs rest : List Char) : Prop := cs = [] ∨ ∃ s, ScansAs cs rest .layout s

variable {cs rest : List Char}

theorem CompleteLayout.isLayoutText (h : CompleteLayout cs) (rest : List Char) :
    IsLayoutText cs rest := by
  obtain ⟨-, items, rfl, hitems⟩ := h
  exact ⟨items, [], (List.append_nil _).symm, hitems, .inl rfl⟩

theorem CompleteLayout.startsLayout (h : CompleteLayout cs) (rest : List Char) :
    startsLayout (cs ++ rest) = true :=
  (h.isLayoutText rest).startsLayout h.1 rest

theorem CompleteLayout.isGap (h : CompleteLayout cs) (hr : rest = [] ∨ PrologTerms.startsLayout rest = false) :
    IsGap cs rest :=
  .inr ⟨_, (h.isLayoutText rest).scansAs h.1 hr⟩

theorem Refills.isGap {cs' : List Char} (h : Refills cs cs')
    (hr : rest = [] ∨ PrologTerms.startsLayout rest = false) : IsGap cs' rest := by
  rcases h with h | ⟨-, rfl⟩
  · exact h.isGap hr
  · exact .inl rfl

/-- Nothing is read in a gap. -/
theorem IsGap.reads (h : IsGap cs rest) {k : Cursor} (hk : k.rest = cs ++ rest) :
    ∃ k', k'.rest = rest ∧ k.Reads [] k' := by
  rcases h with rfl | ⟨s, hs⟩
  · exact ⟨k, hk, .refl k⟩
  · exact ⟨k.move ⟨cs, rest⟩, rfl, Cursor.reads_of_scansAs hk hs⟩

/-- Behind layout there is no gap, as that would be layout behind layout. -/
theorem IsGap.eq_nil {front : List Char} {s : String} (h : IsGap cs rest)
    (hf : ScansAs front (cs ++ rest) .layout s) : cs = [] := by
  rcases h with hnil | ⟨s', hs⟩
  · exact hnil
  · exact absurd hs.longestMatch (hf.longestMatch.not_layout rfl)

theorem utf8Length_eq_zero (h : utf8Length cs = 0) : cs = [] := by
  cases cs with
  | nil => rfl
  | cons c cs =>
    rw [utf8Length_cons] at h
    have hpos := Char.utf8Size_pos c
    omega

/-- Only the start of the first gap depends on where the text begins. -/
theorem Span.gaps_eq_cons (ss : List Span) (b : Nat) :
    ∃ c more, ∀ a, Span.gaps a ss b = ⟨a, c⟩ :: more := by
  cases ss with
  | nil => exact ⟨b, [], fun _ => rfl⟩
  | cons s ss => exact ⟨s.start, Span.gaps s.stop ss b, fun _ => rfl⟩

/-- What stands in front of a text belongs to its first gap. -/
theorem Span.measures_gaps {a a' b : Nat} {ss : List Span} {gs : List (List Char)}
    (h : List.Forall₂ Span.Measures (Span.gaps a' ss b) ([] :: gs)) (ha : a + utf8Length cs = a') :
    List.Forall₂ Span.Measures (Span.gaps a ss b) (cs :: gs) := by
  obtain ⟨c, more, e⟩ := Span.gaps_eq_cons ss b
  rw [e, List.forall₂_cons] at h ⊢
  exact ⟨ha.trans h.1, h.2⟩

theorem Span.FilledBy.refills {s : Span} {g : String} (h : s.FilledBy g) (hm : s.Measures cs) :
    Refills cs g.toList := by
  rcases h with h | ⟨hs, rfl⟩
  · exact .inl h
  · rw [Span.isEmpty, beq_iff_eq] at hs
    exact .inr ⟨utf8Length_eq_zero (Nat.left_eq_add.1 (hs.trans hm.symm)), rfl⟩

/-- What stands at the same bytes of a text is the same. -/
theorem append_inj_of_utf8Length {as bs as' bs' : List Char} (e : as ++ bs = as' ++ bs')
    (h : utf8Length as = utf8Length as') : as = as' ∧ bs = bs' := by
  obtain ⟨more, rfl, rfl⟩ | ⟨more, rfl, rfl⟩ := List.append_eq_append_iff.1 e
  · rw [utf8Length_append] at h
    rw [utf8Length_eq_zero (by omega : utf8Length more = 0)]
    simp
  · rw [utf8Length_append] at h
    rw [utf8Length_eq_zero (by omega : utf8Length more = 0)]
    simp

/-- A range of bytes covers only one piece of a text. -/
theorem Span.Covers.unique {s : Span} {text front piece back front' piece' back' : String}
    (h : s.Covers text front piece back) (h' : s.Covers text front' piece' back') : piece = piece' := by
  have htext : (front ++ piece).toList ++ back.toList = (front' ++ piece').toList ++ back'.toList := by
    rw [← String.toList_append, ← String.toList_append, ← h.text, ← h'.text]
  have hstart := h.start.symm.trans h'.start
  have hstop := h.stop.symm.trans h'.stop
  rw [utf8ByteSize_eq, utf8ByteSize_eq] at hstart hstop
  have hpieces := (append_inj_of_utf8Length htext hstop).1
  rw [String.toList_append, String.toList_append] at hpieces
  exact String.toList_inj.1 (append_inj_of_utf8Length hpieces hstart).2

/-! ## Words -/

/-- A token in a text, with the gap behind it. -/
structure Word where
  /-- The text that is read as the token. -/
  source : List Char
  /-- The category of the token. -/
  kind : TokenKind
  /-- What the token says. -/
  lexeme : String
  /-- What stands between the token and the next one. -/
  gap : List Char

namespace Word

/-- What the token is and says. -/
def content (w : Word) : TokenKind × String := (w.kind, w.lexeme)

/-- The text of several words. -/
def textAll (ws : List Word) : List Char := ws.flatMap fun w => w.source ++ w.gap

/-- The text of the words is read as their tokens. -/
inductive Read : List Word → Prop
  /-- No text is read as no token. -/
  | nil : Read []
  /-- A token is read, then the gap behind it, and then the others. -/
  | cons {w : Word} {ws : List Word} (hk : w.kind ≠ .layout)
    (hw : ScansAs w.source (w.gap ++ textAll ws) w.kind w.lexeme) (hg : IsGap w.gap (textAll ws))
    (hws : Read ws) : Read (w :: ws)

/-- The second word is the first one with another gap: with complete layout, or with none if there was
none. -/
structure Respaced (w w' : Word) : Prop where
  /-- The text is the same. -/
  source : w'.source = w.source
  /-- It is read as the same token. -/
  content : w'.content = w.content
  /-- The gap may be another one. -/
  gap : Refills w.gap w'.gap

variable {w w' : Word} {ws ws' : List Word}

theorem textAll_cons (w : Word) (ws : List Word) :
    textAll (w :: ws) = w.source ++ (w.gap ++ textAll ws) := by
  rw [textAll, List.flatMap_cons, List.append_assoc]
  rfl

/-- No layout stands in front of words. -/
theorem Read.startsLayout (h : Read ws) : textAll ws = [] ∨ startsLayout (textAll ws) = false := by
  cases h with
  | nil => exact .inl rfl
  | @cons w ws hk hw =>
    rw [textAll_cons]
    exact .inr (startsLayout_of_scansAs hw hk)

/-- Words begin as before if only the gaps in them are others. -/
theorem head?_textAll (h : Read ws) (hr : List.Forall₂ Respaced ws ws') :
    (textAll ws).head? = (textAll ws').head? := by
  cases hr with
  | nil => rfl
  | cons hw =>
    cases h with
    | cons _ hscan =>
      obtain ⟨c, cs, e, -⟩ := hscan
      rw [textAll_cons, textAll_cons, hw.source, e]
      rfl

/-- The gap behind a word with what follows it may be replaced. -/
theorem Respaced.replaces (hw : Respaced w w') (h : Read ws) (hr : List.Forall₂ Respaced ws ws') :
    Replaces (w.gap ++ textAll ws) (w'.gap ++ textAll ws') := by
  rcases hw.gap with hg | ⟨hg, hg'⟩
  · exact .inl (hg.startsLayout _)
  · rw [hg, hg', List.nil_append, List.nil_append]
    have hhead := head?_textAll h hr
    rcases h.startsLayout with hnil | hlayout
    · rw [hnil, List.head?_nil, eq_comm, List.head?_eq_none_iff] at hhead
      rw [hhead]
      exact .inl rfl
    · exact .inr ⟨hhead, hlayout⟩

/-- If a point in front of words stands in front of layout, then it is a full stop with a gap behind it,
and stays in front of layout. -/
theorem startsLayout_point (h : Read ws) (hr : List.Forall₂ Respaced ws ws')
    (hp : ∀ more, textAll ws = '.' :: more → more ≠ [] ∧ PrologTerms.startsLayout more = true) :
    ∀ more, textAll ws' = '.' :: more → more ≠ [] ∧ PrologTerms.startsLayout more = true := by
  intro more' e'
  have hhead := head?_textAll h hr
  rw [e', List.head?_cons] at hhead
  obtain ⟨more, e⟩ := List.head?_eq_some_iff.1 hhead
  obtain ⟨hne, hlayout⟩ := hp more e
  cases hr with
  | nil => cases e
  | @cons w w' ws ws' hw hr =>
    cases h with
    | cons hk hscan hg hws =>
      rw [textAll_cons] at e e'
      have hstop := scansAs_stop (endsClause_of_startsLayout hlayout)
      obtain ⟨hsource, rfl, -⟩ := hscan.unique hstop e
      rw [hw.source, hsource, List.cons_append, List.nil_append, List.cons_inj_right] at e'
      subst e'
      -- no word begins like layout, so that the layout behind the full stop is its gap
      have hgap : w.gap ≠ [] := by
        intro hnil
        rw [hnil, List.nil_append] at hne hlayout
        rcases hws.startsLayout with h | h
        · exact hne h
        · rw [hlayout] at h
          cases h
      rcases hw.gap with hcomplete | ⟨hnil, -⟩
      · exact ⟨List.append_ne_nil_of_left_ne_nil hcomplete.1 _, hcomplete.startsLayout _⟩
      · exact absurd hnil hgap

/-- Words are read in the same way if the gaps between them are others. -/
theorem Read.respaced (h : Read ws) (hr : List.Forall₂ Respaced ws ws') : Read ws' := by
  induction hr with
  | nil => exact .nil
  | @cons w w' ws ws' hw hr ih =>
    cases h with
    | cons hk hscan hg hws =>
      have hkind : w'.kind = w.kind := congrArg Prod.fst hw.content
      have hlexeme : w'.lexeme = w.lexeme := congrArg Prod.snd hw.content
      refine .cons (by rwa [hkind]) ?_ ?_ (ih hws)
      · rw [hw.source, hkind, hlexeme]
        refine hscan.replace hk (hw.replaces hws hr) fun hd => ?_
        rcases hw.gap with hg | ⟨hg, hg'⟩
        · intro more e
          have hlayout := hg.startsLayout (textAll ws')
          rw [e, PrologTerms.startsLayout, startsComment_cons (by decide) (by decide)] at hlayout
          exact absurd hlayout (by decide)
        · rw [hg, List.nil_append] at hscan
          rw [hg', List.nil_append]
          exact startsLayout_point hws hr (hscan.uncut.point hd)
      · exact hw.gap.isGap (ih hws).startsLayout

/-- Words are read one after the other. -/
theorem Read.reads (h : Read ws) {k : Cursor} (hk : k.rest = textAll ws) :
    ∃ k', k'.rest = [] ∧ k.Reads (ws.map content) k' := by
  induction h generalizing k with
  | nil => exact ⟨k, hk, .refl k⟩
  | @cons w ws hkind hscan hg hws ih =>
    rw [textAll_cons] at hk
    have hfirst := Cursor.reads_of_scansAs hk hscan
    rw [if_neg hkind] at hfirst
    obtain ⟨k₁, hk₁, hgap⟩ := hg.reads (k := k.move ⟨w.source, w.gap ++ textAll ws⟩) rfl
    obtain ⟨k₂, hk₂, hreads⟩ := ih hk₁
    exact ⟨k₂, hk₂, hfirst.trans (hgap.trans hreads)⟩

/-- The word is what the token covers in the text. -/
structure Shows (text : String) (t : Token) (w : Word) : Prop where
  /-- It is read as the token. -/
  content : (t.kind, t.lexeme) = w.content
  /-- The token covers its text. -/
  covers : ∃ front back, t.span.Covers text front (String.ofList w.source) back

/-- Filling the gaps between the pieces that words show fills the gaps of the words. -/
theorem exists_respaced {text gap : String} {a b : Nat} {ts : List Token}
    {pieces gaps : List String} (hw : List.Forall₂ (Shows text) ts ws)
    (hp : List.Forall₂ (fun t piece => ∃ front back, t.span.Covers text front piece back) ts pieces)
    (hm : List.Forall₂ Span.Measures (Span.gaps a (ts.map (·.span)) b) (cs :: ws.map (·.gap)))
    (hf : List.Forall₂ Span.FilledBy (Span.gaps a (ts.map (·.span)) b) (gap :: gaps)) :
    Refills cs gap.toList ∧ ∃ ws', List.Forall₂ Respaced ws ws' ∧
      (joined gap pieces gaps).toList = gap.toList ++ textAll ws' := by
  induction hw generalizing a cs gap pieces gaps with
  | nil =>
    obtain rfl := List.forall₂_nil_left_iff.1 hp
    rw [List.map_nil, Span.gaps, List.forall₂_cons] at hm hf
    refine ⟨hf.1.refills hm.1, [], .nil, ?_⟩
    rw [joined, List.zipWith_nil_left, String.toList_append, String.join_nil]
    rfl
  | @cons t w ts ws hw _ ih =>
    obtain ⟨piece, pieces, ⟨front, back, hpiece⟩, hps, rfl⟩ := List.forall₂_cons_left_iff.1 hp
    rw [List.map_cons, Span.gaps, List.forall₂_cons] at hm hf
    obtain ⟨gap', gaps, rfl⟩ : ∃ gap' gaps', gaps = gap' :: gaps' := by
      obtain ⟨c, more, e⟩ := Span.gaps_eq_cons (ts.map (·.span)) b
      have hgaps := hf.2
      rw [e] at hgaps
      obtain ⟨gap', gaps', -, -, h⟩ := List.forall₂_cons_left_iff.1 hgaps
      exact ⟨gap', gaps', h⟩
    obtain ⟨hgap, ws', hws', htext⟩ := ih hps hm.2 hf.2
    obtain ⟨front', back', hcovers⟩ := hw.covers
    refine ⟨hf.1.refills hm.1, { w with gap := gap'.toList } :: ws', .cons ⟨rfl, rfl, hgap⟩ hws', ?_⟩
    rw [joined_cons, String.toList_append, String.toList_append, htext, hpiece.unique hcovers,
      String.toList_ofList, textAll_cons, List.append_assoc]

end Word

/-! ## The words of a text -/

open Word

namespace Cursor

/-- A text that is read without errors is a row of words that show its tokens, with gaps between them. -/
theorem Behind.words {k : Cursor} {text front : String} (hk : k.Behind text front) {ts : List Token}
    (h : k.items.map Prod.fst = ts.map .ok) : ∃ g ws, k.rest = g ++ textAll ws ∧
      IsGap g (textAll ws) ∧ Read ws ∧
      List.Forall₂ (Shows text) (ts.filter (·.kind ≠ .layout)) ws ∧
      List.Forall₂ Span.Measures (Span.gaps k.offset ((ts.filter (·.kind ≠ .layout)).map (·.span))
        text.utf8ByteSize) (g :: ws.map (·.gap)) := by
  induction ts generalizing k front with
  | nil =>
    have hrest := rest_of_items_nil (List.map_eq_nil_iff.1 h)
    refine ⟨[], [], hrest, .inl rfl, .nil, .nil, .cons ?_ .nil⟩
    have htext := hk.text
    rw [hrest, String.ofList_nil, String.append_empty] at htext
    rw [htext]
    exact hk.offset
  | cons t ts ih =>
    obtain ⟨⟨item, k'⟩, more, hitems, rfl, hmore⟩ := List.map_eq_cons_iff.1 h
    obtain ⟨hnext, rfl⟩ := next?_of_items_cons hitems
    obtain ⟨piece, hpiece⟩ := hk.next? hnext
    have hscan : ScansAs piece.toList k'.rest t.kind t.lexeme := by
      obtain ⟨cs, hcs, hscan⟩ := scansAs_of_next? hnext
      rwa [List.append_cancel_right (hcs.symm.trans hpiece.rest)] at hscan
    obtain ⟨g, ws, hrest, hg, hws, hshows, hgaps⟩ := ih hpiece.behind hmore
    have hpieces := hpiece.rest
    rw [hrest] at hscan hpieces
    have hspan : t.span = ⟨k.offset, k'.offset⟩ := hpiece.span
    by_cases hkind : t.kind = .layout
    · rw [hkind] at hscan
      obtain rfl := hg.eq_nil hscan
      have hoffset : k.offset + utf8Length piece.toList = k'.offset := by
        rw [hk.offset, hpiece.behind.offset, String.utf8ByteSize_append, utf8ByteSize_eq piece]
      rw [List.nil_append] at hscan hpieces
      rw [List.filter_cons_of_neg (by simpa using hkind)]
      exact ⟨piece.toList, ws, hpieces, .inr ⟨t.lexeme, hscan⟩, hws, hshows,
        Span.measures_gaps hgaps hoffset⟩
    · have hword : Shows text t ⟨piece.toList, t.kind, t.lexeme, g⟩ := by
        refine ⟨rfl, front, String.ofList k'.rest, ?_⟩
        rw [String.ofList_toList]
        exact hpiece.covers
      rw [List.filter_cons_of_pos (by simpa using hkind), List.map_cons, Span.gaps, hspan]
      refine ⟨[], ⟨piece.toList, t.kind, t.lexeme, g⟩ :: ws, ?_, .inl rfl, .cons hkind hscan hg hws,
        .cons hword hshows, .cons rfl hgaps⟩
      rw [textAll_cons]
      exact hpieces

/-- Layout between tokens is irrelevant: if a text is read without an error, and the gaps between its tokens
are filled anew, each with complete layout or, where nothing was, with nothing, then it is read without an
error, and has the same tokens, layout aside, in the same order. -/
theorem contents_joined {text gap : String} {ts : List Token} {pieces gaps : List String}
    (hitems : (ofText text).items.map Prod.fst = ts.map .ok)
    (hpieces : List.Forall₂ (fun t piece => ∃ front back, t.span.Covers text front piece back)
      (ts.filter (·.kind ≠ .layout)) pieces)
    (hgaps : List.Forall₂ Span.FilledBy
      (Span.gaps 0 ((ts.filter (·.kind ≠ .layout)).map (·.span)) text.utf8ByteSize) (gap :: gaps)) :
    ∃ ts', (ofText (joined gap pieces gaps)).items.map Prod.fst = ts'.map .ok ∧
      Token.contents ts' = Token.contents ts := by
  obtain ⟨g, ws, -, hg, hws, hshows, hmeasures⟩ := (behind_ofText text).words hitems
  obtain ⟨hgap, ws', hrespaced, htext⟩ := exists_respaced hshows hpieces hmeasures hgaps
  have hws' := hws.respaced hrespaced
  obtain ⟨k, hk, hlayout⟩ := (hgap.isGap hws'.startsLayout).reads (k := ofText (joined gap pieces gaps)) htext
  obtain ⟨k', hk', hreads⟩ := hws'.reads hk
  obtain ⟨ts', hitems', hcontents⟩ := (hlayout.trans hreads).items_fst hk'
  refine ⟨ts', hitems', ?_⟩
  calc
    Token.contents ts' = ws'.map content := hcontents
    _ = ws.map content := (map_eq_map_of_forall₂ hrespaced fun w _ w' hw => hw.content.symm).symm
    _ = Token.contents ts := (map_eq_map_of_forall₂ hshows fun t _ w hw => hw.content).symm

/-- A comment in a comment opens a gap, a comment stands behind a full stop, and the full stop stays behind
the digits, as before. -/
theorem contents_joined_comments : ∃ ts', (ofText " X/*/**/*/=1.%\n").items.map Prod.fst = ts'.map .ok ∧
    Token.contents ts' = [(.var, "X"), (.name, "="), (.natural, "1"), (.stop, ".")] := by
  let ts : List Token := [⟨.var, "X", ⟨0, 1⟩, ⟨0, 0⟩⟩, ⟨.name, "=", ⟨1, 2⟩, ⟨0, 1⟩⟩,
    ⟨.natural, "1", ⟨2, 3⟩, ⟨0, 2⟩⟩, ⟨.stop, ".", ⟨3, 4⟩, ⟨0, 3⟩⟩, ⟨.layout, "\n", ⟨4, 5⟩, ⟨0, 4⟩⟩]
  have hitems : (ofText "X=1.\n").items.map Prod.fst = ts.map .ok := by
    rw [map_fst_items_of_ask (n := 5) (by decide +kernel)]
    decide +kernel
  have hspace : CompleteLayout " ".toList := ⟨by decide, [[' ']], rfl, by simpa using .char rfl⟩
  have hblock : CompleteLayout "/*/**/*/".toList := by
    refine ⟨by decide, [['/', '*', '/', '*', '*', '/', '*', '/']], rfl, ?_⟩
    simpa using .block (.opening (.closing (.closing .nil)))
  have hline : CompleteLayout "%\n".toList :=
    ⟨by decide, [['%', '\n']], rfl, by simpa using .line List.not_mem_nil⟩
  have hempty : ∀ n, (⟨n, n⟩ : Span).FilledBy "" := fun n => .inr ⟨beq_self_eq_true n, rfl⟩
  refine @contents_joined "X=1.\n" " " ts ["X", "=", "1", "."] ["/*/**/*/", "", "", "%\n"] hitems ?_ ?_
  · exact .cons ⟨"", "=1.\n", by decide, rfl, by decide⟩ <| .cons ⟨"X", "1.\n", by decide, rfl, by decide⟩ <|
      .cons ⟨"X=", ".\n", by decide, rfl, by decide⟩ <| .cons ⟨"X=1", "\n", by decide, rfl, by decide⟩ .nil
  · exact .cons (.inl hspace) <| .cons (.inl hblock) <| .cons (hempty 2) <| .cons (hempty 3) <|
      .cons (.inl hline) .nil

end Cursor

end PrologTerms
