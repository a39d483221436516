import Mathlib.Data.List.Chain
import PrologTerms.Proofs.Token.Cursor
import PrologTerms.Proofs.Token.Parts

/-!
# Tokens and errors cover the text

However often the next token is asked for, also behind errors, what has been given covers the text from
its start up to the place that is reached, piece by piece: every token and every error covers at least
one whole character and begins where the one before it ends, at the line and column to which the text
before it leads. Every token has the form of its kind and is as long as possible, so that no layout
follows on layout.
-/

namespace PrologTerms

/-! ## Ranges of bytes -/

theorem utf8ByteSize_ofList (cs : List Char) : (String.ofList cs).utf8ByteSize = utf8Length cs := by
  induction cs with
  | nil => rfl
  | cons c cs ih =>
    rw [String.ofList_cons, String.utf8ByteSize_append, String.utf8ByteSize_singleton, ih]
    rfl

theorem utf8ByteSize_eq (s : String) : s.utf8ByteSize = utf8Length s.toList := by
  rw [← utf8ByteSize_ofList, String.ofList_toList]

namespace Span

/-- The range covers the bytes of `piece`, which stands between `front` and `back` in the text. -/
structure Covers (s : Span) (text front piece back : String) : Prop where
  /-- The text is divided there. -/
  text : text = front ++ piece ++ back
  /-- The range starts behind the first part. -/
  start : s.start = front.utf8ByteSize
  /-- The range stops behind the second part. -/
  stop : s.stop = (front ++ piece).utf8ByteSize

/-- The ranges lie one behind the other, from one offset to another one. -/
def Contiguous : Nat → List Span → Nat → Prop
  | a, [], b => a = b
  | a, s :: ss, b => s.start = a ∧ Contiguous s.stop ss b

end Span

/-! ## Asking for tokens -/

/-- The range of bytes that a token or an error covers. -/
def itemSpan : Except LexicalError Token → Span
  | .ok t => t.span
  | .error e => e.span

/-- The place where a token or an error starts. -/
def itemPos : Except LexicalError Token → Position
  | .ok t => t.pos
  | .error e => e.pos

/-- Is it a token of layout? -/
def IsLayoutToken (item : Except LexicalError Token) : Prop := ∃ t, item = .ok t ∧ t.kind = .layout

/-- Does a token of the kind say something else than the text that it covers? Quoted names, strings and
character literals are decoded. -/
def TokenKind.Decodes : TokenKind → List Char → Prop
  | .name, cs => cs.head? = some '\''
  | .string, _ => True
  | .natural, cs => ['0', '\''] <+: cs
  | _, _ => False

/-- A token that is not decoded says what it covers. -/
theorem LongestMatch.lexeme_eq {kind : TokenKind} {s : String} {cs rest : List Char}
    (h : LongestMatch kind s cs rest) (hd : ¬ kind.Decodes cs) : s = String.ofList cs := by
  cases h with
  | quoted h hr => exact absurd rfl hd
  | string h hr => exact absurd trivial hd
  | literal h => exact absurd (List.prefix_append _ _) hd
  | _ => rfl

/-- Behind layout no other layout is read. -/
theorem LongestMatch.not_layout {s s' : String} {piece piece' rest rest' : List Char}
    (h : LongestMatch .layout s piece rest) (e : rest = piece' ++ rest') :
    ¬ LongestMatch .layout s' piece' rest' := by
  intro h'
  cases h with
  | layout _ _ hr hcomment =>
    cases h' with
    | layout hne' htext' _ _ =>
      have hlayout := htext'.startsLayout hne' rest'
      obtain ⟨c, cs, rfl⟩ := List.exists_cons_of_ne_nil hne'
      rw [e] at hr hcomment
      rw [List.cons_append, startsLayout, ← List.cons_append, hcomment, hr c rfl] at hlayout
      cases hlayout

namespace Cursor

/-- The tokens and errors that come when the next one is asked for a number of times, and the place that
is reached; at the end of the text, no more come. -/
def ask (k : Cursor) : Nat → List (Except LexicalError Token) × Cursor
  | 0 => ([], k)
  | n + 1 =>
    match k.next? with
    | none => ([], k)
    | some (item, k') => (item :: (k'.ask n).1, (k'.ask n).2)

/-- The place is in the text behind `front`. -/
structure Behind (k : Cursor) (text front : String) : Prop where
  /-- The rest of the text is what comes behind the place. -/
  text : text = front ++ String.ofList k.rest
  /-- The offset counts the bytes before it. -/
  offset : k.offset = front.utf8ByteSize
  /-- The line and column are those to which the text before it leads. -/
  pos : k.pos = Position.advanceAll {} front.toList

variable {k k' : Cursor} {text front : String} {item : Except LexicalError Token}

theorem behind_ofText (text : String) : (ofText text).Behind text "" :=
  ⟨by simp [ofText], rfl, rfl⟩

/-- The token or error covers `piece`, which stands behind `front` in the text, and leads from one place to
the other. -/
structure Gives (k : Cursor) (text front piece : String) (item : Except LexicalError Token) (k' : Cursor) :
    Prop where
  /-- It covers the piece. -/
  covers : (itemSpan item).Covers text front piece (String.ofList k'.rest)
  /-- The piece has at least one character. -/
  nonempty : piece ≠ ""
  /-- It has the line and column of the place. -/
  pos : itemPos item = k.pos
  /-- It reaches from one place to the other. -/
  span : itemSpan item = ⟨k.offset, k'.offset⟩
  /-- The second place is behind the piece. -/
  behind : k'.Behind text (front ++ piece)
  /-- The piece stands at the first place. -/
  rest : k.rest = piece.toList ++ k'.rest
  /-- A token has the form of its kind. -/
  form : ∀ t, item = .ok t → LongestMatch t.kind t.lexeme piece.toList k'.rest

theorem Behind.next? (hk : k.Behind text front) (h : k.next? = some (item, k')) :
    ∃ piece, k.Gives text front piece item k' := by
  obtain ⟨c, cs, ⟨taken, rest⟩, hrest, rfl, hitem⟩ := next?_eq_some h
  have hwhole := whole_scanToken c cs
  have htaken := taken_scanToken_ne_nil c cs
  have hsplit : (scanToken c cs).split = ⟨taken, rest⟩ := by
    rcases hitem with ⟨kind, s, hscan, -⟩ | ⟨f, hscan, -⟩
    · rw [hscan]
    · rw [hscan]
  rw [Scan.whole, hsplit, Split.whole, ← hrest] at hwhole
  rw [hsplit] at htaken
  have htext : text = front ++ String.ofList taken ++ String.ofList rest := by
    rw [hk.text, String.append_assoc, ← String.ofList_append, hwhole]
  have hoffset : (k.move ⟨taken, rest⟩).offset = (front ++ String.ofList taken).utf8ByteSize := by
    rw [String.utf8ByteSize_append, utf8ByteSize_ofList, ← hk.offset]
    rfl
  have hspan : itemSpan item = ⟨k.offset, (k.move ⟨taken, rest⟩).offset⟩ ∧ itemPos item = k.pos := by
    rcases hitem with ⟨kind, s, -, rfl⟩ | ⟨f, -, rfl⟩
    · exact ⟨rfl, rfl⟩
    · exact ⟨rfl, rfl⟩
  refine ⟨String.ofList taken, ⟨htext, ?_, ?_⟩, ?_, hspan.2, hspan.1, ⟨htext, hoffset, ?_⟩, ?_, ?_⟩
  · rw [hspan.1, ← hk.offset]
  · rw [hspan.1, ← hoffset]
  · intro e
    rw [← String.ofList_nil, String.ofList_inj] at e
    exact htaken e
  · rw [String.toList_append, Position.advanceAll_append, ← hk.pos, String.toList_ofList]
    rfl
  · rw [String.toList_ofList, ← hwhole]
    rfl
  · rintro t rfl
    rw [String.toList_ofList]
    rcases hitem with ⟨kind, s, hscan, e⟩ | ⟨f, -, e⟩
    · cases e
      exact longestMatch_scanToken hscan
    · cases e

/-- Once the end of the text is reached, all tokens and errors have come. -/
theorem map_fst_items_of_ask {n : Nat} (h : (k.ask n).2.rest = []) :
    k.items.map Prod.fst = (k.ask n).1 := by
  induction n generalizing k with
  | zero =>
    have hitems : k.items = [] := items_nil h
    rw [hitems]
    rfl
  | succ n ih =>
    rw [Cursor.ask] at h ⊢
    split at h
    · next hnext =>
      rw [items_nil (next?_eq_none.1 hnext)]
      rfl
    · next hnext => rw [items_of_next? hnext, List.map_cons, ih h]

/-- The first of what is given is what comes next. -/
theorem next?_of_head?_ask {n : Nat} (h : (k.ask n).1.head? = some item) :
    ∃ k', k.next? = some (item, k') := by
  cases n with
  | zero => cases h
  | succ n =>
    rw [Cursor.ask] at h
    split at h
    · cases h
    · next k' hnext =>
      cases h
      exact ⟨k', hnext⟩

/-! ## Whatever is given -/

/-- What holds where nothing is given, and of what comes next if it holds of what is given behind it, holds
of all that is given. -/
theorem Behind.ask_induction {P : Cursor → List (Except LexicalError Token) × Cursor → Prop}
    (nil : ∀ k front, k.Behind text front → P k ([], k))
    (cons : ∀ k front piece item k' n, k.Behind text front → k.Gives text front piece item k' →
      P k' (k'.ask n) → P k (item :: (k'.ask n).1, (k'.ask n).2))
    (hk : k.Behind text front) (n : Nat) : P k (k.ask n) := by
  induction n generalizing k front with
  | zero => exact nil k front hk
  | succ n ih =>
    rw [Cursor.ask]
    split
    · exact nil k front hk
    · next item k' h =>
      obtain ⟨piece, hpiece⟩ := hk.next? h
      exact cons k front piece item k' n hk hpiece (ih hpiece.behind)

theorem Behind.ask (hk : k.Behind text front) (n : Nat) : ∃ front', (k.ask n).2.Behind text front' := by
  refine hk.ask_induction (P := fun _ r => ∃ front', r.2.Behind text front') ?_ ?_ n
  · exact fun _ front hk => ⟨front, hk⟩
  · exact fun _ _ _ _ _ _ _ _ ih => ih

theorem Behind.contiguous_ask (hk : k.Behind text front) (n : Nat) :
    Span.Contiguous k.offset ((k.ask n).1.map itemSpan) (k.ask n).2.offset := by
  refine hk.ask_induction (P := fun k r => Span.Contiguous k.offset (r.1.map itemSpan) r.2.offset) ?_ ?_ n
  · exact fun _ _ _ => rfl
  · intro k front piece item k' n _ hpiece ih
    rw [List.map_cons, hpiece.span]
    exact ⟨rfl, ih⟩

/-- Whatever is given covers a piece of the text, and has the form of its kind. -/
theorem Behind.of_mem_ask (hk : k.Behind text front) {n : Nat} (h : item ∈ (k.ask n).1) :
    ∃ front' piece back, (itemSpan item).Covers text front' piece back ∧ piece ≠ "" ∧
      itemPos item = Position.advanceAll {} front'.toList ∧
      ∀ t, item = .ok t → LongestMatch t.kind t.lexeme piece.toList back.toList := by
  refine hk.ask_induction (P := fun _ r => item ∈ r.1 → _) ?_ ?_ n h
  · exact fun _ _ _ h => absurd h List.not_mem_nil
  · intro k front piece item' k' n hk hpiece ih h
    rcases List.mem_cons.1 h with rfl | h
    · refine ⟨front, piece, _, hpiece.covers, hpiece.nonempty, hpiece.pos.trans hk.pos, fun t ht => ?_⟩
      rw [String.toList_ofList]
      exact hpiece.form t ht
    · exact ih h

theorem Behind.isChain_ask (hk : k.Behind text front) (n : Nat) :
    (k.ask n).1.IsChain fun x y => ¬ (IsLayoutToken x ∧ IsLayoutToken y) := by
  refine hk.ask_induction (P := fun _ r => r.1.IsChain _) ?_ ?_ n
  · exact fun _ _ _ => .nil
  · intro k front piece item k' n _ hpiece ih
    refine List.isChain_cons.2 ⟨fun item' hitem' => ?_, ih⟩
    rintro ⟨⟨t, rfl, ht⟩, ⟨t', rfl, ht'⟩⟩
    obtain ⟨k'', h'⟩ := next?_of_head?_ask hitem'
    obtain ⟨piece', hpiece'⟩ := hpiece.behind.next? h'
    have hlayout := hpiece.form t rfl
    have hlayout' := hpiece'.form t' rfl
    rw [ht] at hlayout
    rw [ht'] at hlayout'
    exact hlayout.not_layout hpiece'.rest hlayout'

/-- What has been given covers the text up to the place that is reached. -/
structure Tiles (text : String) (items : List (Except LexicalError Token)) (k : Cursor) : Prop where
  /-- Every token and error covers at least one whole character and has the line and column to which the
  text before it leads; and a token that is not decoded says what it covers. -/
  covers : ∀ item ∈ items, ∃ front piece back, (itemSpan item).Covers text front piece back ∧
    piece ≠ "" ∧ itemPos item = Position.advanceAll {} front.toList ∧
    ∀ t, item = .ok t → ¬ t.kind.Decodes piece.toList → t.lexeme = piece
  /-- Each begins where the one before it ends, the first at the start of the text, and the place is
  where the last one ends. -/
  contiguous : Span.Contiguous 0 (items.map itemSpan) k.offset
  /-- The place is between two characters, at the line and column to which the text before it leads. -/
  place : ∃ front back, text = front ++ back ∧ k.offset = front.utf8ByteSize ∧
    k.pos = Position.advanceAll {} front.toList
  /-- No layout follows on layout. -/
  apart : items.IsChain fun x y => ¬ (IsLayoutToken x ∧ IsLayoutToken y)
  /-- Nothing comes next if and only if the place is the end of the text. -/
  finished : k.next? = none ↔ k.offset = text.utf8ByteSize

/-- However often the next token is asked for, what comes covers the text without gaps. -/
theorem tiles_ask (text : String) (n : Nat) :
    Tiles text ((ofText text).ask n).1 ((ofText text).ask n).2 := by
  have hstart := behind_ofText text
  obtain ⟨front, hk⟩ := hstart.ask n
  refine ⟨fun item h => ?_, hstart.contiguous_ask n, ⟨front, _, hk.text, hk.offset, hk.pos⟩,
    hstart.isChain_ask n, ?_⟩
  · obtain ⟨front', piece, back, hcovers, hne, hpos, hform⟩ := hstart.of_mem_ask h
    refine ⟨front', piece, back, hcovers, hne, hpos, fun t ht hd => ?_⟩
    rw [(hform t ht).lexeme_eq hd, String.ofList_toList]
  · have hsize : text.utf8ByteSize = _ + _ := hk.text ▸ String.utf8ByteSize_append
    rw [next?_eq_none, hsize, hk.offset, Nat.left_eq_add, String.utf8ByteSize_eq_zero_iff,
      ← String.ofList_nil, String.ofList_inj]

/-- Every token that comes has the form of its kind, and is as long as what follows it allows. -/
theorem longestMatch_of_mem_ask {text : String} {n : Nat} {t : Token}
    (h : .ok t ∈ ((ofText text).ask n).1) : ∃ front piece back, t.span.Covers text front piece back ∧
      LongestMatch t.kind t.lexeme piece.toList back.toList := by
  obtain ⟨front, piece, back, hcovers, -, -, hform⟩ := (behind_ofText text).of_mem_ask h
  exact ⟨front, piece, back, hcovers, hform t rfl⟩

/-- A space and a comment that the end of the text cuts off are one token, though a comment in the
comment is complete. -/
theorem longestMatch_cut_comment :
    .ok ⟨.layout, " /* /* é */", ⟨1, 13⟩, ⟨0, 1⟩⟩ ∈ ((ofText "7 /* /* é */").ask 3).1 ∧
    ∃ front piece back, (⟨1, 13⟩ : Span).Covers "7 /* /* é */" front piece back ∧
      LongestMatch .layout " /* /* é */" piece.toList back.toList := by
  have h : .ok ⟨.layout, " /* /* é */", ⟨1, 13⟩, ⟨0, 1⟩⟩ ∈ ((ofText "7 /* /* é */").ask 3).1 := by
    decide +kernel
  exact ⟨h, longestMatch_of_mem_ask h⟩

end Cursor

end PrologTerms
