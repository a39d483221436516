import PrologTerms.Proofs.Heap.Parts
import PrologTerms.Proofs.Session.GeneratedNames
import PrologTerms.Proofs.Session.Sound
import PrologTerms.Proofs.Writing.Atom
import PrologTerms.Proofs.Writing.Tokens

/-!
# The names of variables in written terms

Terms of a session are written one after the other. Each variable has a name, under which it is written
wherever it occurs, and which is a token of its own there and whenever it stands alone.
-/

namespace PrologTerms.Workspace

variable {w : Workspace} {ts : List Tree} {cs : List Cell}

/-- Names identify variables. Whatever known terms are written, one after the other, there are names for
their variables, so that wherever a variable stands in a term, its name stands in the text of the term,
and is a token there; the text has no other tokens for variables. Different variables have different
names, and each name is read as one token, a variable, which says the name and is not `_`. -/
theorem exists_variableNames (hw : w.Reachable) (ops : OpTable) (hcs : ∀ c ∈ cs, w.Knows c)
    (htrees : List.Forall₂ (fun c t => w.session.tree? c = some t) cs ts) :
    ∃ naming : Address → String,
      List.Forall₂ (fun t text => text.toList = Piece.textAll naming (t.pieces ops) ∧
          ∃ tokens, (Cursor.ofText text).items.map Prod.fst = tokens.map .ok ∧
            Token.varNames tokens = t.vars.map naming)
        ts (Tree.texts ops w.session.names [] ts) ∧
      (∀ i ∈ ts.flatMap Tree.vars, ∀ j ∈ ts.flatMap Tree.vars, naming i = naming j → i = j) ∧
      ∀ i ∈ ts.flatMap Tree.vars, naming i ≠ "_" ∧ ∃ k, (Cursor.ofText (naming i)).items =
        [(.ok ⟨.var, naming i, ⟨0, (naming i).utf8ByteSize⟩, {}⟩, k)] := by
  have hs := hw.sound
  obtain ⟨hne, hnames⟩ := Tree.names_namesAfter hs.session.names ops ts
  refine ⟨(Tree.namesAfter ops w.session.names [] ts).get, ?_, hnames.inj, fun i hi => ⟨hne i, ?_⟩⟩
  · rw [Tree.texts_eq, List.forall₂_map_right_iff]
    refine List.forall₂_same.2 fun t ht => ⟨String.toList_ofList, ?_⟩
    obtain ⟨c, hc, htree⟩ := exists_of_mem_of_forall₂ htrees ht
    obtain ⟨d, hd, hdc⟩ := hcs c hc
    have hterm : w.heap.IsTerm w.session.atoms.size c :=
      hdc.isTerm hs.session.store.heap (hs.handles d hd)
    have hproper : t.Proper := Heap.proper_of_resolveWithin hs.session.store.heap hterm htree
    have htidy : Tidy (t.pieces ops) := hproper.tidy.1 .whole (by simp) [] trivial trivial
    obtain ⟨tokens, hitems, hcontents⟩ := tokens_textAll htidy fun i hi =>
      hnames.isVarName i (List.mem_flatMap.2 ⟨t, ht, Tree.mem_vars_of_mem_pieces hi⟩)
    refine ⟨tokens, hitems, ?_⟩
    rw [Token.varNames_eq, hcontents, Piece.varNames_tokens, Tree.vars_pieces]
  · obtain ⟨k, hitems⟩ :=
      Cursor.items_ofText_of_scansAs (scansAs_var (hnames.isVarName i hi) (apart_nil _))
    rw [String.ofList_toList] at hitems
    exact ⟨k, hitems⟩

/-- Two clauses have a variable `X` each. Written in one term, they are told apart. -/
theorem exists_variableNames_same : ∃ w, ∃ naming : Address → String, ∃ tokens, blank.run? [.request (.parse "X."),
      .request (.parse "X."), .request (.term "f" [.ref 1, .ref 0, .ref 1])] = some w ∧
    (Cursor.ofText "f(X, X_, X)").items.map Prod.fst = tokens.map .ok ∧
    Token.varNames tokens = [naming 1, naming 0, naming 1] ∧ naming 0 ≠ naming 1 := by
  let heap : Heap := ⟨#[.ref 0, .ref 1, .con ⟨9, 3⟩, .ref 1, .ref 0, .ref 1]⟩
  let atoms : AtomTable := ⟨⟨(Atom.pinned ++ ["f"]).toArray⟩⟩
  let w : Workspace := ⟨{ store := ⟨heap, {}, [], 0⟩, atoms, names := [(1, "X"), (0, "X")] },
    [.str 2, .ref 1, .ref 0], [], heap⟩
  have hrun : blank.run? [.request (.parse "X."), .request (.parse "X."),
      .request (.term "f" [.ref 1, .ref 0, .ref 1])] = some w := by decide +kernel
  let t : Tree := .compound "f" [.var 1, .var 0, .var 1]
  have htree : w.session.tree? (.str 2) = some t := rfl
  have hknown : ∀ c ∈ [Cell.str 2], w.Knows c := by
    intro c hc
    rw [List.mem_singleton.1 hc]
    exact ⟨.str 2, List.mem_cons_self, .refl⟩
  have htexts : Tree.texts w.session.ops w.session.names [] [t] = ["f(X, X_, X)"] := by
    decide +kernel
  obtain ⟨naming, htokens, hinj, -⟩ :=
    exists_variableNames (reachable_blank.run _ hrun) w.session.ops hknown (.cons htree .nil)
  rw [htexts] at htokens
  obtain _ | ⟨⟨-, tokens, hitems, hnames⟩, -⟩ := htokens
  refine ⟨w, naming, tokens, hrun, hitems, hnames, fun e => ?_⟩
  exact absurd (hinj 0 (by decide +kernel) 1 (by decide +kernel) e) (by decide)

end PrologTerms.Workspace
