import PrologTerms.Proofs.Heap.Parts
import PrologTerms.Proofs.Session.Sound
import PrologTerms.Proofs.Writing.Tokens

/-!
# What is written is cut into tokens as it was put together
-/

namespace PrologTerms.Workspace

variable {w : Workspace}

/-- The clause that is written for a term, whatever the operators are, is the text of the term's pieces
and a full stop, and is cut into exactly their tokens, without an error: a name for every atom and
functor, where `[]` and `{}` are two brackets, the digits of every integer, behind a minus sign if it is
negative, the name of every variable, and every bracket, comma and bar. The full stop is the last token,
and ends with the text. -/
theorem tokens_of_clause (hw : w.Reachable) (ops : OpTable) {c : Cell} (hc : c ∈ w.handles) {t : Tree}
    (ht : w.session.tree? c = some t) : ∃ text final tokens stop,
      ({ w.session with ops } : Session).clauseText? c = some text ∧
      text.toList = Piece.textAll (t.givenName ops w.session.names) (t.pieces ops) ++ final ∧
      (final = ['.'] ∨ final = [' ', '.']) ∧
      (Cursor.ofText text).items.map Prod.fst = (tokens ++ [stop]).map .ok ∧
      Token.contents tokens =
        (t.pieces ops).flatMap (Piece.tokens (t.givenName ops w.session.names)) ∧
      stop.kind = .stop ∧ stop.lexeme = "." ∧ stop.span.stop = utf8Length text.toList := by
  have hs := hw.sound
  have hp : t.Proper :=
    Heap.proper_of_resolveWithin hs.session.store.heap (hs.handles c hc) ht
  obtain ⟨final, tokens, stop, h⟩ := tokens_clauseText ops hs.session.names hp
  refine ⟨t.clauseText ops w.session.names, final, tokens, stop, ?_, h⟩
  have htree : ({ w.session with ops } : Session).tree? c = some t := ht
  rw [Session.clauseText?, htree]
  rfl

/-- The tokens of `-7 = [- -7, '[]'('/*', '.', '$gbl'(3))|_G6].`: a minus sign is a name in front of
an integer as well as in front of an operand, what stands between quotes is neither a comment nor a
full stop, and brackets in quotes are one name. -/
theorem tokens_of_clause_symbols : ∃ w c t, Reachable w ∧ c ∈ w.handles ∧ w.session.tree? c = some t ∧
    ∃ text tokens stop,
      w.session.clauseText? c = some text ∧
      (Cursor.ofText text).items.map Prod.fst = (tokens ++ [stop]).map .ok ∧
      Token.contents tokens = [(.name, "-"), (.natural, "7"), (.name, "="), (.punct, "["), (.name, "-"),
        (.name, "-"), (.natural, "7"), (.punct, ","), (.name, "[]"), (.punct, "("), (.name, "/*"),
        (.punct, ","), (.name, "."), (.punct, ","), (.name, "$gbl"), (.punct, "("), (.natural, "3"),
        (.punct, ")"), (.punct, ")"), (.punct, "|"), (.var, "_G6"), (.punct, "]")] ∧
      stop.kind = .stop ∧ stop.span.stop = utf8Length text.toList := by
  let heap : Heap := ⟨#[.con ⟨4, 1⟩, .int (-7), .con ⟨0, 3⟩, .con ⟨9, 0⟩, .con ⟨1, 0⟩, .global 3, .ref 6,
    .con ⟨1, 2⟩, .str 2, .ref 6, .con ⟨1, 2⟩, .str 0, .str 7, .con ⟨10, 2⟩, .int (-7), .str 10]⟩
  let atoms : AtomTable := ⟨⟨(Atom.pinned ++ ["/*", "="]).toArray⟩⟩
  let w : Workspace := ⟨{ store := ⟨heap, {}, [], 0⟩, atoms }, [.str 13, .str 10, .ref 6, .str 2,
    .global 3, .con ⟨1, 0⟩, .con ⟨9, 0⟩, .str 0, .int (-7)], [], heap⟩
  have hrun : blank.run? [.request (.int (-7)), .request (.term "-" [.int (-7)]),
      .request (.atom "/*"), .request (.atom "."), .request (.global 3),
      .request (.term "[]" [.con ⟨9, 0⟩, .con ⟨1, 0⟩, .global 3]), .request .var,
      .request (.list [.str 0, .str 2] (.ref 6)), .request (.term "=" [.int (-7), .str 10])] =
    some w := by decide +kernel
  have hw : w.Reachable := reachable_blank.run _ hrun
  have hc : .str 13 ∈ w.handles := by decide
  let t : Tree := .compound "=" [.int (-7), .compound "." [.compound "-" [.int (-7)],
    .compound "." [.compound "[]" [.atom "/*", .atom ".", .global 3], .var 6]]]
  have ht : w.session.tree? (.str 13) = some t := rfl
  obtain ⟨text, -, tokens, stop, htext, -, -, hitems, hcontents, hkind, -, hend⟩ :=
    tokens_of_clause hw w.session.ops hc ht
  refine ⟨w, .str 13, t, hw, hc, ht, text, tokens, stop, htext, hitems, ?_, hkind, hend⟩
  rw [hcontents]
  decide +kernel

end PrologTerms.Workspace
