import PrologTerms.Proofs.Token.Cursor
import PrologTerms.Proofs.Token.Exact

/-!
# What the tokens of a text say

Layout aside, what is read as a token at a place is the next one there, and a text that is read token by
token has the tokens in order.
-/

namespace PrologTerms

/-- What tokens are and say, without layout. -/
def Token.contents (ts : List Token) : List (TokenKind × String) :=
  (ts.filter (·.kind ≠ .layout)).map fun t => (t.kind, t.lexeme)

theorem Token.contents_append (ts us : List Token) :
    contents (ts ++ us) = contents ts ++ contents us := by
  rw [contents, contents, contents, List.filter_append, List.map_append]

namespace Cursor

variable {cs rest : List Char} {kind : TokenKind} {s : String} {k k' k'' : Cursor}
  {ts us : List (TokenKind × String)}

/-- What is read as one token is the first item, and the others come behind it. -/
theorem items_of_scansAs (hk : k.rest = cs ++ rest) (h : ScansAs cs rest kind s) : k.items =
    (.ok ⟨kind, s, ⟨k.offset, (k.move ⟨cs, rest⟩).offset⟩, k.pos⟩, k.move ⟨cs, rest⟩) ::
      (k.move ⟨cs, rest⟩).items := by
  obtain ⟨c, cs', rfl, h⟩ := h
  exact items_ok hk h

/-- The next token is read at the place. -/
theorem scansAs_of_next? {t : Token} (h : k.next? = some (.ok t, k')) :
    ∃ cs, k.rest = cs ++ k'.rest ∧ ScansAs cs k'.rest t.kind t.lexeme := by
  obtain ⟨c, cs, split, hrest, rfl, hitem⟩ := next?_eq_some h
  rcases hitem with ⟨kind, s, hscan, e⟩ | ⟨f, -, e⟩
  · cases e
    rw [hrest]
    exact ⟨split.taken, scansAs_of_scanToken hscan⟩
  · cases e

/-- From one place of a text to another one come these tokens, and layout. -/
def Reads (k : Cursor) (ts : List (TokenKind × String)) (k' : Cursor) : Prop :=
  ∃ passed : List (Token × Cursor), k.items = passed.map (fun p => (.ok p.1, p.2)) ++ k'.items ∧
    Token.contents (passed.map Prod.fst) = ts ∧
    k'.offset + utf8Length k'.rest = k.offset + utf8Length k.rest

theorem Reads.refl (k : Cursor) : k.Reads [] k := ⟨[], rfl, rfl, rfl⟩

theorem Reads.trans (h : k.Reads ts k') (h' : k'.Reads us k'') : k.Reads (ts ++ us) k'' := by
  obtain ⟨ps, hps, rfl, hlen⟩ := h
  obtain ⟨qs, hqs, rfl, hlen'⟩ := h'
  refine ⟨ps ++ qs, ?_, ?_, hlen'.trans hlen⟩
  · rw [hps, hqs, List.map_append, List.append_assoc]
  · rw [List.map_append, Token.contents_append]

/-- One token is read, and what is behind it is left. -/
theorem reads_of_scansAs (hk : k.rest = cs ++ rest) (h : ScansAs cs rest kind s) :
    k.Reads (if kind = .layout then [] else [(kind, s)]) (k.move ⟨cs, rest⟩) := by
  refine ⟨[(⟨kind, s, ⟨k.offset, (k.move ⟨cs, rest⟩).offset⟩, k.pos⟩, k.move ⟨cs, rest⟩)],
    items_of_scansAs hk h, ?_, ?_⟩
  · by_cases e : kind = .layout <;> simp [Token.contents, e]
  · rw [hk, utf8Length_append, ← Nat.add_assoc]
    rfl

/-- What is read up to the end of a text is all that is in it. -/
theorem Reads.items_fst (h : k.Reads ts k') (hk' : k'.rest = []) :
    ∃ tokens, k.items.map Prod.fst = tokens.map .ok ∧ Token.contents tokens = ts := by
  obtain ⟨passed, hitems, hcontents, -⟩ := h
  refine ⟨passed.map Prod.fst, ?_, hcontents⟩
  rw [hitems, items_nil hk']
  simp

end Cursor

end PrologTerms
