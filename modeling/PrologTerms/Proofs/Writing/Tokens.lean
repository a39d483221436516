import PrologTerms.Proofs.Writing.Clause

/-!
# The tokens of a written clause

Whatever the operators are, the text of a clause is cut into the tokens of its pieces and a full stop:
no piece joins with its neighbours, is divided, or vanishes in a comment.
-/

namespace PrologTerms

/-- The names of the variables among tokens, one for each occurrence. -/
def Token.varNames (ts : List Token) : List String :=
  (ts.filter (·.kind = .var)).map (·.lexeme)

theorem Token.varNames_eq (ts : List Token) :
    varNames ts = ((contents ts).filter (·.1 = .var)).map Prod.snd := by
  rw [varNames, contents, List.filter_map, List.map_map, List.filter_filter]
  have hfilter : ts.filter (·.kind = .var) = ts.filter fun t =>
      decide (t.kind = .var) && decide (t.kind ≠ .layout) := by
    refine List.filter_congr fun t _ => ?_
    cases t.kind <;> rfl
  rw [hfilter]
  rfl

/-- The variables among the tokens of pieces are those among the pieces. -/
theorem Piece.varNames_tokens (naming : Address → String) (ps : List Piece) :
    ((ps.flatMap (Piece.tokens naming)).filter (·.1 = .var)).map Prod.snd =
      (ps.filterMap Piece.var?).map naming := by
  induction ps with
  | nil => rfl
  | cons p ps ih =>
    rw [List.flatMap_cons, List.filter_append, List.map_append, ih]
    cases p with
    | atom name =>
      rw [tokens]
      split
      · rfl
      · split <;> rfl
    | int n => cases n <;> rfl
    | _ => rfl

namespace Cursor

variable {cs rest : List Char} {k : Cursor} {naming : Address → String}
  {ts : List (TokenKind × String)}

theorem reads_of_scansAllAs (hk : k.rest = cs ++ rest) (h : ScansAllAs ts cs rest) :
    ∃ k', k'.rest = rest ∧ k.Reads ts k' := by
  induction ts generalizing k cs with
  | nil =>
    cases h
    exact ⟨k, hk, .refl k⟩
  | cons t ts ih =>
    obtain ⟨kind, s⟩ := t
    obtain ⟨cs₁, cs₂, rfl, hscan, hkind, h⟩ := h
    rw [List.append_assoc] at hk
    have hread := reads_of_scansAs hk hscan
    rw [if_neg hkind] at hread
    obtain ⟨k', hk', hreads⟩ := ih (k := k.move ⟨cs₁, cs₂ ++ rest⟩) rfl h
    exact ⟨k', hk', hread.trans hreads⟩

/-- Tidy pieces are cut into their tokens. -/
theorem reads_of_tidy {ps : List Piece} {final : List Char} (ht : Tidy ps)
    (hv : ∀ i, .var i ∈ ps → IsVarName (naming i))
    (hf : Apart (Piece.textAll naming ps) final)
    (hk : k.rest = Piece.textAll naming ps ++ final) :
    ∃ k', k'.rest = final ∧ k.Reads (ps.flatMap (Piece.tokens naming)) k' := by
  induction ps generalizing k with
  | nil => exact ⟨k, hk, .refl k⟩
  | cons p ps ih =>
    have hv' : ∀ i, .var i ∈ ps → IsVarName (naming i) := fun i hi => hv i (List.mem_cons_of_mem p hi)
    have hf' : Apart (Piece.textAll naming ps) final := hf.of_append
    rw [Piece.textAll, List.flatMap_cons, List.append_assoc] at hk
    -- a space is layout between two tokens, and every other piece is cut into its own tokens
    have hfirst : ∃ k', k'.rest = Piece.textAll naming ps ++ final ∧
        k.Reads (p.tokens naming) k' := by
      by_cases hp : p = .space
      · subst hp
        obtain ⟨⟨q, qs, rfl, hq⟩, ht⟩ := ht
        have hq' : q ≠ .space := by
          rintro rfl
          cases hq
        have hscan := scansAs_layout (c := ' ') (by decide)
          (.inr (startsLayout_textAll hq' ht hv' hf'))
        exact ⟨_, rfl, reads_of_scansAs hk hscan⟩
      · exact reads_of_scansAllAs hk (scansAllAs_first hp ht hv hf).1
    obtain ⟨k', hk', hread⟩ := hfirst
    obtain ⟨k'', hk'', hreads⟩ := ih ht.tail hv' hf' hk'
    exact ⟨k'', hk'', hread.trans hreads⟩

/-- The full stop of a clause is the last token. -/
theorem reads_stop {final : List Char} (hf : EndsClause cs final []) (hk : k.rest = final) :
    ∃ k' stop, k.Reads [] k' ∧ k'.items = [(.ok stop, k'.move ⟨['.'], []⟩)] ∧ stop.kind = .stop ∧
      stop.lexeme = "." ∧ stop.span.stop = k.offset + utf8Length k.rest := by
  have hscan : ScansAs ['.'] [] .stop (String.ofList ['.']) := scansAs_stop rfl
  have hend : ∀ k' : Cursor, k'.rest = ['.'] → k.Reads [] k' → ∃ stop : Token,
      k'.items = [(.ok stop, k'.move ⟨['.'], []⟩)] ∧ stop.kind = .stop ∧ stop.lexeme = "." ∧
        stop.span.stop = k.offset + utf8Length k.rest := by
    intro k' hk' hread
    have hnil : (k'.move ⟨['.'], []⟩).items = [] := items_nil rfl
    have hitems := items_of_scansAs (hk'.trans (List.append_nil _).symm) hscan
    rw [hnil] at hitems
    obtain ⟨-, -, -, hlen⟩ := hread
    refine ⟨_, hitems, rfl, rfl, ?_⟩
    rw [← hlen, hk']
    rfl
  rcases hf.stop with rfl | rfl
  · obtain ⟨stop, h⟩ := hend k hk (.refl k)
    exact ⟨k, stop, .refl k, h⟩
  · have hstop := startsLayout_of_scansAs hscan (by decide)
    have hspace : ScansAs [' '] ['.'] .layout _ := scansAs_layout (by decide) (.inr hstop)
    have hread := reads_of_scansAs hk hspace
    obtain ⟨stop, h⟩ := hend _ rfl hread
    exact ⟨_, stop, hread, h⟩

end Cursor

/-- The tokens of the text of tidy pieces are those of the pieces. -/
theorem tokens_textAll {naming : Address → String} {ps : List Piece} (ht : Tidy ps)
    (hv : ∀ i, .var i ∈ ps → IsVarName (naming i)) : ∃ tokens,
      (Cursor.ofText (String.ofList (Piece.textAll naming ps))).items.map Prod.fst =
        tokens.map .ok ∧
      Token.contents tokens = ps.flatMap (Piece.tokens naming) := by
  have hrest : (Cursor.ofText (String.ofList (Piece.textAll naming ps))).rest =
      Piece.textAll naming ps ++ [] := by
    rw [Cursor.rest_ofText, String.toList_ofList, List.append_nil]
  obtain ⟨k, hk, hreads⟩ := Cursor.reads_of_tidy ht hv (apart_nil _) hrest
  exact hreads.items_fst hk

/-- The text of a clause is that of its pieces and a full stop, and its tokens are theirs. -/
theorem tokens_clauseText {source : SourceNames} (ops : OpTable) (hs : source.WellFormed) {t : Tree}
    (ht : t.Proper) : ∃ final tokens stop,
      (t.clauseText ops source).toList =
        Piece.textAll (t.givenName ops source) (t.pieces ops) ++ final ∧
      (final = ['.'] ∨ final = [' ', '.']) ∧
      (Cursor.ofText (t.clauseText ops source)).items.map Prod.fst = (tokens ++ [stop]).map .ok ∧
      Token.contents tokens = (t.pieces ops).flatMap (Piece.tokens (t.givenName ops source)) ∧
      stop.kind = .stop ∧ stop.lexeme = "." ∧
      stop.span.stop = utf8Length (t.clauseText ops source).toList := by
  have hend : startsLayout [] = true := rfl
  obtain ⟨final, htext, hfinal⟩ := toList_clauseText ops source t rfl hend
  rw [List.append_nil] at htext
  have htidy : Tidy (t.pieces ops) := ht.tidy.1 .whole (by simp) [] trivial trivial
  have hnames : ∀ i, .var i ∈ t.pieces ops → IsVarName (t.givenName ops source i) :=
    fun i hi => (Tree.names_givenName hs ops t).2.isVarName i (Tree.mem_vars_of_mem_pieces hi)
  obtain ⟨k, hk, hreads⟩ := Cursor.reads_of_tidy htidy hnames hfinal.keepsApart
    ((Cursor.rest_ofText (t.clauseText ops source)).trans htext)
  obtain ⟨k', stop, hspace, hstop, hkind, hlexeme, hspan⟩ := Cursor.reads_stop hfinal hk
  obtain ⟨passed, hitems, hcontents, -⟩ := hreads.trans hspace
  refine ⟨final, passed.map Prod.fst, stop, htext, hfinal.stop, ?_, ?_, hkind, hlexeme, ?_⟩
  · rw [hitems, hstop]
    simp
  · rw [hcontents, List.append_nil]
  · obtain ⟨-, -, -, hlen⟩ := hreads
    rw [hspan, hlen, Cursor.rest_ofText, Cursor.offset_ofText, Nat.zero_add]

end PrologTerms
