import PrologTerms.Proofs.Heap.Growth
import PrologTerms.Proofs.Session.RoundTrip
import PrologTerms.Proofs.Writing.Ambiguous
import PrologTerms.Proofs.Writing.Recover
import Mathlib.Logic.Equiv.List

/-!
# Terms with the same text

With the operators of an unambiguous table, only variants have the same text. With those of any other
one, some terms that are no variants have the same text, because it is decided for every operand on its
own whether it is put in brackets.
-/

namespace PrologTerms

/-! ## Texts -/

/-- A number for every text. -/
def numbered (s : String) : Nat := Encodable.encode (s.toList.map Char.toNat)

theorem numbered_injective : Function.Injective numbered := by
  intro s s' h
  have hcodes := Encodable.encode_injective h
  rw [← String.toList_inj]
  exact List.map_injective_iff.2 (fun _ _ h => Char.toNat_inj.1 h) hcodes

namespace Tree

variable {ops : OpTable} {source : SourceNames} {t u : Tree}

/-- The tree, up to its variables, can be told from the lexemes of its clause. -/
theorem toPieces_clauseText (hs : source.WellFormed) (ht : t.Writable) :
    (LexemeStream.ofText (t.clauseText ops source)).toPieces numbered =
      (t.rename fun i => numbered (t.givenName ops source i)).pieces ops := by
  have hlexes := lexes_ofText (t.clauseText ops source)
  rw [← List.append_nil (t.clauseText ops source).toList] at hlexes
  have hspells := (spells_clauseText ops hs ht rfl).2 _ _ hlexes
  have htidy : Tidy (t.pieces ops) := ht.proper.tidy.1 .whole (by simp) [] trivial trivial
  rw [pieces_rename, toPieces_of_spells htidy (by simp) hspells]
  rfl

/-- With an unambiguous table, terms with the same text are variants. -/
theorem variant_of_text (hu : ops.Unambiguous) (hr : ops.InRange) (hs : source.WellFormed)
    (ht : t.Writable) (hw : u.Writable) (h : t.text ops source = u.text ops source) :
    t.Variant u := by
  have hinj : ∀ v : Tree, ∀ i ∈ v.vars, ∀ j ∈ v.vars,
      numbered (v.givenName ops source i) = numbered (v.givenName ops source j) → i = j :=
    fun v i hi j hj e => (names_givenName hs ops v).2.inj i hi j hj (numbered_injective e)
  have hclause : t.clauseText ops source = u.clauseText ops source := by
    rw [clauseText, clauseText, h]
  have hpieces := @toPieces_clauseText ops source t hs ht
  rw [hclause, toPieces_clauseText hs hw] at hpieces
  exact variant_of_rename_eq (hinj t) (hinj u)
    (pieces_injective hu hr (ht.rename _) (hw.rename _) hpieces.symm)

/-- Terms that are written in the same pieces have the same text. -/
theorem text_eq_of_pieces (h : t.pieces ops = u.pieces ops) :
    t.text ops source = u.text ops source := by
  rw [text, text, writeNaming, writeNaming, h]

theorem Numeric.vars_eq (h : t.Numeric) : t.vars = [] := by
  induction t using Tree.induction with
  | compound name args ih =>
    rw [vars_compound, List.flatMap_eq_nil_iff]
    exact fun a ha => ih a ha ((numeric_compound.1 h).2 a ha)
  | int z => rfl
  | _ => exact h.elim

theorem Numeric.isPlain (h : t.Numeric) : t.IsPlain := by
  induction t using Tree.induction with
  | compound name args ih =>
    exact everywhere_compound.2 ⟨rfl, fun a ha => ih a ha ((numeric_compound.1 h).2 a ha)⟩
  | int z => rfl
  | _ => exact h.elim

/-- A term without variables is the only variant of itself. -/
theorem Variant.eq_of_vars (h : t.Variant u) (ht : t.vars = []) : u = t := by
  obtain ⟨ρ, -, rfl⟩ := h
  have hid : t.rename ρ = t.rename id := rename_congr fun i hi => by simp [ht] at hi
  exact hid.trans (subst_var t)

end Tree

/-! ## Terms of integers can be made -/

theorem Session.tree?_newTerm {s : Session} (hs : s.Sound) (name : String) {args : List Cell}
    {ts : List Tree} (hne : args ≠ [])
    (hts : List.Forall₂ (fun c t => s.heap.IsTerm s.atoms.size c ∧ s.tree? c = some t) args ts) :
    (s.newTerm name args).2.tree? (s.newTerm name args).1 = some (.compound name ts) := by
  obtain ⟨-, hx, -, hname⟩ := AtomTable.intern_spec hs.atoms name
  let atoms := (s.atoms.intern name).2
  have hargs : ∀ c ∈ args, s.heap.IsTerm atoms.size c := by
    intro c hc
    obtain ⟨t, -, hterm, -⟩ := exists_of_mem_of_forall₂ hts.flip hc
    exact hterm.mono (.refl _) hx.size_le
  have htrees : List.Forall₂ (fun c t => s.heap.resolve? atoms c = some t) args ts :=
    hts.imp fun _ _ h => Heap.Grows.resolve? (.refl _) hx hs.store.heap h.1 h.2
  have htree := @Heap.resolve?_newCompound _ _ ⟨(s.atoms.intern name).1, args.length⟩ _ _
    (hs.store.heap.mono_atoms hx.size_le) rfl hargs (List.length_pos_iff.2 hne) htrees
  rw [hname] at htree
  unfold newTerm
  rw [if_neg (by simpa using hne)]
  exact htree

namespace Workspace

variable {w w' w'' : Workspace}

/-- The workspace `w'` has come from `w`, with the same operators and all terms as they were. -/
structure Keeps (w w' : Workspace) : Prop where
  /-- A use of the session has led there. -/
  reachable : w'.Reachable
  /-- The operators are the same. -/
  ops : w'.session.ops = w.session.ops
  /-- All terms are as they were. -/
  terms : ∀ c ∈ w.handles, c ∈ w'.handles ∧
    ∀ t, w.session.tree? c = some t → w'.session.tree? c = some t

theorem Keeps.refl (hw : w.Reachable) : w.Keeps w := ⟨hw, rfl, fun _ hc => ⟨hc, fun _ h => h⟩⟩

theorem Keeps.trans (h : w.Keeps w') (h' : w'.Keeps w'') : w.Keeps w'' := by
  refine ⟨h'.reachable, h'.ops.trans h.ops, fun c hc => ?_⟩
  obtain ⟨hc', htree⟩ := h.terms c hc
  obtain ⟨hc'', htree'⟩ := h'.terms c hc'
  exact ⟨hc'', fun t ht => htree' t (htree t ht)⟩

/-- Requests keep all terms as they were. -/
theorem keeps_advance (hw : w.Reachable) {r : Request} (hr : ∀ c ∈ r.terms, c ∈ w.handles)
    {cs : List Cell} {s : Session} (h : w.session.answer? r = some (cs, s))
    (hops : s.ops = w.session.ops) : w.Keeps (w.advance cs s) := by
  have hs := hw.sound
  have ha := Session.answers_answer? hs.session (fun c hc => hs.handles c (hr c hc)) h
  refine ⟨hw.step (.request r) ?_, hops, fun c hc => ⟨List.mem_append_right cs hc, fun t ht => ?_⟩⟩
  · rw [perform?, if_pos hr, h]
    rfl
  · exact ha.grows.resolve? ha.atoms hs.session.store.heap (hs.handles c hc) ht

/-- The term has been handed out, and has the tree. -/
def Has (w : Workspace) (c : Cell) (t : Tree) : Prop := c ∈ w.handles ∧ w.session.tree? c = some t

theorem Keeps.has (h : w.Keeps w') {c : Cell} {t : Tree} (hc : w.Has c t) : w'.Has c t :=
  ⟨(h.terms c hc.1).1, (h.terms c hc.1).2 t hc.2⟩

/-- Every term of integers can be made. -/
theorem exists_numeric {t : Tree} (ht : t.Numeric) (hw : w.Reachable) :
    ∃ w' c, w.Keeps w' ∧ w'.Has c t := by
  induction t using Tree.induction generalizing w with
  | int z =>
    have hans : w.session.answer? (.int z) = some ([.int z], w.session) := if_pos ht
    have hk := keeps_advance hw (by simp [Request.terms]) hans rfl
    exact ⟨_, .int z, hk, List.mem_cons_self, rfl⟩
  | compound name args ih =>
    obtain ⟨hne, hargs⟩ := Tree.numeric_compound.1 ht
    have hall : ∀ as : List Tree, as ⊆ args →
        ∃ w' cs, w.Keeps w' ∧ List.Forall₂ (fun c t => w'.Has c t) cs as := by
      intro as
      induction as with
      | nil => exact fun _ => ⟨w, [], .refl hw, .nil⟩
      | cons a as ih' =>
        intro hsub
        obtain ⟨w₁, cs, hk₁, hcs⟩ := ih' fun b hb => hsub (List.mem_cons_of_mem a hb)
        have ha := hsub List.mem_cons_self
        obtain ⟨w₂, c, hk₂, hc⟩ := ih a ha (hargs a ha) hk₁.reachable
        exact ⟨w₂, c :: cs, hk₁.trans hk₂, .cons hc (hcs.imp fun _ _ => hk₂.has)⟩
    obtain ⟨w₁, cs, hk₁, hcs⟩ := hall args (List.Subset.refl args)
    have hmem : ∀ c ∈ cs, c ∈ w₁.handles := by
      intro c hc
      obtain ⟨t, -, h⟩ := exists_of_mem_of_forall₂ hcs.flip hc
      exact h.1
    have hs := hk₁.reachable.sound
    have hne' : cs ≠ [] := by
      rintro rfl
      cases hcs
      exact hne rfl
    have hops : (w₁.session.newTerm name cs).2.ops = w₁.session.ops := by
      unfold Session.newTerm
      split
      · rfl
      · rfl
    have hk₂ := keeps_advance hk₁.reachable (r := .term name cs) hmem rfl hops
    refine ⟨_, _, hk₁.trans hk₂, List.mem_cons_self, ?_⟩
    exact Session.tree?_newTerm hs.session name hne'
      (hcs.imp fun c _ h => ⟨hs.handles c h.1, h.2⟩)
  | _ => exact ht.elim

/-! ## Tables with different texts -/

/-- In every session with the operators, terms that have the same text are variants. -/
def DistinctTexts (ops : OpTable) : Prop :=
  ∀ w : Workspace, w.Reachable → w.session.ops = ops → ∀ c d t u, w.Has c t → w.Has d u →
    t.IsPlain → u.IsPlain → w.session.text? c = w.session.text? d → t.Variant u

/-- Terms that have the same text are variants, if and only if the operators are unambiguous. -/
theorem distinctTexts_iff (hw : w.Reachable) :
    DistinctTexts w.session.ops ↔ w.session.ops.Unambiguous := by
  constructor
  · intro h
    refine (OpTable.separates_iff hw.inRange).1 fun t u ht hu e => ?_
    obtain ⟨w₁, c, hk₁, hc⟩ := exists_numeric ht hw
    obtain ⟨w₂, d, hk₂, hd⟩ := exists_numeric hu hk₁.reachable
    have hc := hk₂.has hc
    have hops := (hk₁.trans hk₂).ops
    have htext : w₂.session.text? c = w₂.session.text? d := by
      rw [Session.text?, Session.text?, hc.2, hd.2, Option.map_some, Option.map_some, hops,
        Tree.text_eq_of_pieces e]
    have hvariant := h w₂ hk₂.reachable hops c d t u hc hd ht.isPlain hu.isPlain htext
    exact (hvariant.eq_of_vars ht.vars_eq).symm
  · intro hu w' hw' hops c d t u hc hd ht htu htext
    have hs := hw'.sound
    rw [← hops] at hu
    rw [Session.text?, Session.text?, hc.2, hd.2, Option.map_some, Option.map_some,
      Option.some.injEq] at htext
    exact Tree.variant_of_text hu hw'.inRange hs.session.names
      (Heap.writable_of_resolveWithin hs.session.store.heap (hs.handles c hc.1) hc.2 ht)
      (Heap.writable_of_resolveWithin hs.session.store.heap (hs.handles d hd.1) hd.2 htu) htext

/-- Terms that have the same text with the standard operators are variants. -/
theorem distinctTexts_standard : DistinctTexts .standard :=
  (distinctTexts_iff reachable_blank).2 OpTable.regular_standard.toLegible.unambiguous

/-- Two operators of one priority that both claim what is between them make two terms look alike. -/
theorem exists_same_text : ∃ w c d t u, Reachable w ∧ w.session.ops =
      (OpTable.standard.add "aa" 700 .xfy).add "bb" 700 .yfx ∧ w.Has c t ∧ w.Has d u ∧ t.IsPlain ∧
    u.IsPlain ∧ w.session.text? c = w.session.text? d ∧ ¬ t.Variant u := by
  let heap : Heap := ⟨#[.con ⟨12, 2⟩, .con ⟨10, 0⟩, .con ⟨11, 0⟩, .con ⟨13, 2⟩, .con ⟨9, 0⟩, .str 0,
    .con ⟨13, 2⟩, .con ⟨9, 0⟩, .con ⟨10, 0⟩, .con ⟨12, 2⟩, .str 6, .con ⟨11, 0⟩]⟩
  let atoms : AtomTable := ⟨⟨(Atom.pinned ++ ["x", "y", "z", "bb", "aa"]).toArray⟩⟩
  let ops := (OpTable.standard.add "aa" 700 .xfy).add "bb" 700 .yfx
  let w : Workspace := ⟨{ store := ⟨heap, {}, [], 0⟩, atoms, ops },
    [.str 9, .str 6, .str 3, .str 0, .con ⟨11, 0⟩, .con ⟨10, 0⟩, .con ⟨9, 0⟩], [], heap⟩
  have hrun : blank.run? [.request (.addOp "aa" 700 .xfy), .request (.addOp "bb" 700 .yfx),
      .request (.atom "x"), .request (.atom "y"), .request (.atom "z"),
      .request (.term "bb" [.con ⟨10, 0⟩, .con ⟨11, 0⟩]), .request (.term "aa" [.con ⟨9, 0⟩, .str 0]),
      .request (.term "aa" [.con ⟨9, 0⟩, .con ⟨10, 0⟩]),
      .request (.term "bb" [.str 6, .con ⟨11, 0⟩])] = some w := by decide +kernel
  let t : Tree := .compound "aa" [.atom "x", .compound "bb" [.atom "y", .atom "z"]]
  let u : Tree := .compound "bb" [.compound "aa" [.atom "x", .atom "y"], .atom "z"]
  have htext : w.session.text? (.str 3) = w.session.text? (.str 9) := by decide +kernel
  refine ⟨w, .str 3, .str 9, t, u, reachable_blank.run _ hrun, rfl, ⟨by decide, rfl⟩,
    ⟨by decide, rfl⟩, by decide, by decide, htext, fun h => ?_⟩
  have e := h.eq_of_vars (by decide)
  simp [t, u] at e

end Workspace

end PrologTerms
