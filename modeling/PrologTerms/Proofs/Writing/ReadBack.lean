import PrologTerms.Proofs.Writing.Operand

/-!
# Written terms are read back

Terms in brackets are read up to the bracket that closes them, whatever stands behind it. With atoms
and operators these are all forms in which terms are written, so that all terms are read back.
-/

namespace PrologTerms

variable {g : Grammar} {naming : Address → String} {more : List Char} {F : List Frame}
  {M : Nat} {k : List Piece} {b : Bool} {stream : LexemeStream} {name : String} {a t : Tree}

/-! ## Brackets and arguments -/

theorem readBack_curly (hr : g.ops.Regular) (hw : a.Writable) (ih : a.ReadBack g naming more) :
    (Tree.compound "{}" [a]).ReadBack g naming more := by
  intro p hp k M F b stream _ hs
  rw [Tree.write_curly hp] at hs
  obtain ⟨l, rest, rfl, hl, hrest⟩ := hs.punct
  obtain ⟨l', rest', rfl⟩ := hrest.exists_cons
  obtain ⟨q, qs, hqs, hq⟩ : ∃ q qs, a.write g.ops .whole (.punct '}' :: k) = q :: qs ∧
      q.opens = true := hw.proper.opens (by simp) _
  have hnot : l'.isPunct "\x7d" = false :=
    isPunct_of_not_closes (Spells.opens hq (hqs ▸ hrest)).1 (by decide)
  have hstand : Stands g naming more .whole OpTable.maxPriority (.punct '}' :: k) :=
    stands_close (by decide) (Nat.le_refl _)
  have hlead := ih .whole (by simp) _ _ (.contents .curly M :: F) false _ hstand hrest
  refine Grammar.Leads.of_goes hr (Grammar.goes_opened (Grammar.operand_curly hl hnot rest')) ?_
  refine (hlead.congr (Tree.clear_one (.inl rfl))).finish fun s hs => ?_
  obtain ⟨e, stream', hgoes, he, hk⟩ := goes_close (by decide) (P := fun e => e.Denotes _ _)
    (fun e l hl he => ⟨.curly e, by simp [Bracket.next?, hl.isPunct], Expr.denotes_curly he⟩) hs
  exact ⟨_, hgoes, isBehind_of_denotes he hk⟩

/-- Goes on behind a comma or a bar, if a bracket waits for it. -/
theorem goes_separator (hr : g.ops.Regular) (bracket bracket' : Bracket) {c : Char} {e : Expr}
    {q : Nat} (hc : Ends (.punct c :: k))
    (hb : ∀ l, l.Is .punct (String.ofList [c]) b → bracket.next? e l = some (.again bracket'))
    (hs : Spells naming more (.punct c :: k) b stream) :
    ∃ rest, g.Goes ⟨.contents bracket M :: F, .behind e q argumentMax, stream⟩
        ⟨.contents bracket' M :: F, .operand argumentMax, rest⟩ ∧ Spells naming more k false rest := by
  obtain ⟨l, rest, rfl, hl, hrest⟩ := hs.punct
  exact ⟨rest, Grammar.goes_again (operator?_of_ends hr hc (Nat.le_refl _) hs) (hb l hl), hrest⟩

/-- All arguments are read back, up to the closing bracket. -/
theorem leads_arguments (hr : g.ops.Regular) (name : String) {args : List Tree} (hne : args ≠ [])
    (ih : ∀ t ∈ args, t.ReadBack g naming more) (before : List Expr)
    (hs : Spells naming more (Tree.writeArgs g.ops args (.punct ')' :: k)) b stream) :
    g.Leads (∀ t ∈ args, t.Clear g.ops)
      ⟨.contents (.arguments name before) M :: F, .operand argumentMax, stream⟩ fun s =>
        ∃ es rest, s = ⟨F, .behind (.call name (before.reverse ++ es)) 0 M, rest⟩ ∧
          Expr.DenotesAll (Given naming) es args ∧ Spells naming more k false rest := by
  induction args generalizing before b stream with
  | nil => exact absurd rfl hne
  | cons t ts ihs =>
    have ht := ih t List.mem_cons_self
    cases ts with
    | nil =>
      have hstand : Stands g naming more .argument argumentMax (.punct ')' :: k) :=
        stands_close (by decide) (Nat.le_refl _)
      have hlead := ht .argument (by simp) _ _ (.contents (.arguments name before) M :: F) b _
        hstand hs
      refine (hlead.congr (by simp)).finish fun s hs => ?_
      obtain ⟨e, rest, hgoes, ⟨e', rfl, he⟩, hk⟩ := goes_close (by decide)
        (P := fun e => ∃ e', e = .call name (before.reverse ++ [e']) ∧ e'.Denotes (Given naming) t)
        (fun e l hl he => ⟨.call name (e :: before).reverse, by simp [Bracket.next?, hl.isPunct],
          e, by rw [List.reverse_cons], he⟩) hs
      exact ⟨_, hgoes, [e'], rest, rfl, Expr.denotesAll_one he, hk⟩
    | cons u us =>
      have hends : Ends (Tree.comma (Tree.writeArgs g.ops (u :: us) (.punct ')' :: k))) := by
        simp [Tree.comma, Ends, closers]
      have hlead := ht .argument (by simp) _ _ (.contents (.arguments name before) M :: F) b _
        (stands_argument hr hends) hs
      refine (hlead.and_then hr fun s hs => ?_).congr List.forall_mem_cons
      obtain ⟨e, q, stream', rfl, -, he, hs⟩ := hs
      obtain ⟨rest, hgoes, hrest⟩ := goes_separator (M := M) (F := F) (e := e) (q := q) hr
        (.arguments name before) (.arguments name (e :: before)) hends
        (fun l hl => by simp [Bracket.next?, hl.isPunct]) hs
      have hmore := ihs (by simp) (fun t ht => ih t (List.mem_cons_of_mem _ ht)) (e :: before)
        (b := true) hrest
      refine Grammar.Leads.of_goes hr hgoes (hmore.finish ?_)
      rintro s ⟨es, rest', rfl, hes, hk⟩
      refine ⟨_, .refl _, e :: es, rest', ?_, ⟨t, u :: us, rfl, he, hes⟩, hk⟩
      simp

theorem readBack_call {args : List Tree} (hr : g.ops.Regular) (hc : Tree.IsCall g.ops name args)
    (ih : ∀ t ∈ args, t.ReadBack g naming more) : (Tree.compound name args).ReadBack g naming more := by
  intro p hp k M F b stream _ hs
  rw [Tree.write_call hp hc] at hs
  obtain ⟨l, rest, rfl, hl, hrest⟩ := hs.functor
  obtain ⟨l', rest', rfl, hl', hrest'⟩ := hrest.punct
  have hclear : (Tree.compound name args).Clear g.ops ↔ ∀ t ∈ args, t.Clear g.ops :=
    Tree.clear_iff_of_before? fun a ha => .inr (hc.one a ha).2.1
  refine Grammar.Leads.of_goes hr (Grammar.goes_opened (Grammar.operand_functor hl hl' rest')) ?_
  have hlead := leads_arguments (M := M) (F := F) hr name hc.ne_nil ih [] hrest'
  refine (hlead.congr hclear).finish ?_
  rintro s ⟨es, stream, rfl, hes, hk⟩
  exact ⟨_, .refl _, isBehind_of_denotes (Expr.denotes_call hes) hk⟩

/-! ## Lists -/

/-- The tail of a list is read back behind the elements before it. -/
def Tree.TailReadBack (g : Grammar) (naming : Address → String) (more : List Char) (t : Tree) :
    Prop :=
  ∀ k M F e q before b stream, Spells naming more (t.write g.ops .tail (.punct ']' :: k)) b stream →
    g.Leads (t.Clear g.ops) ⟨.contents (.items before) M :: F, .behind e q argumentMax, stream⟩ fun s =>
      ∃ e' rest, s = ⟨F, .behind (.list (e :: before).reverse e') 0 M, rest⟩ ∧
        e'.Denotes (Given naming) t ∧ Spells naming more k false rest

theorem tailReadBack_nil : (Tree.atom "[]").TailReadBack g naming more := by
  intro k M F e q before b stream hs
  rw [Tree.write_tail_nil] at hs
  obtain ⟨l, rest, rfl, hl, hrest⟩ := hs.punct
  have hnext : (Bracket.items before).next? e l = some (.closed (.list (e :: before).reverse .nil)) := by
    simp [Bracket.next?, hl.isPunct]
  have hnone : g.operator? q argumentMax l = none := operator?_close (by decide) hs
  have hgoes : g.Goes ⟨.contents (.items before) M :: F, .behind e q argumentMax, .ok l :: rest⟩
      ⟨F, .behind (.list (e :: before).reverse .nil) 0 M, rest⟩ := Grammar.goes_closed hnone hnext
  exact Grammar.leads_of_goes rfl hgoes ⟨.nil, rest, rfl, rfl, hrest⟩

theorem tailReadBack_list {a' : Tree} (hr : g.ops.Regular) (hw : a'.Writable)
    (ih : a.ReadBack g naming more) (ih' : a'.TailReadBack g naming more) :
    (Tree.compound "." [a, a']).TailReadBack g naming more := by
  intro k M F e q before b stream hs
  rw [Tree.write_tail_list] at hs
  have hends :
      Ends (Tree.comma (a.write g.ops .argument (a'.write g.ops .tail (.punct ']' :: k)))) := by
    simp [Tree.comma, Ends, closers]
  obtain ⟨rest, hgoes, hrest⟩ := goes_separator (M := M) (F := F) (e := e) (q := q) hr
    (.items before) (.items (e :: before)) hends (fun l hl => by simp [Bracket.next?, hl.isPunct]) hs
  have htail : Ends (a'.write g.ops .tail (.punct ']' :: k)) :=
    Tree.ends_tail hw.proper (by simp [Ends, closers])
  have hlead := ih .argument (by simp) _ _ (.contents (.items (e :: before)) M :: F) true rest
    (stands_argument hr htail) hrest
  refine Grammar.Leads.of_goes hr hgoes ((hlead.and_then hr fun s hs => ?_).congr Tree.clear_two)
  obtain ⟨e', q', stream', rfl, -, he', hs⟩ := hs
  refine (ih' k M F e' q' (e :: before) false stream' hs).finish ?_
  rintro s ⟨e'', rest', rfl, he'', hk⟩
  refine ⟨_, .refl _, .cons e' e'', rest', ?_, Expr.denotes_cons he' he'', hk⟩
  simp [Expr.list]

/-- A tail that is no list is read behind a bar. -/
theorem tailReadBack_bar (hr : g.ops.Regular) (hw : t.Writable) (hl : ¬ t.IsList)
    (ih : t.ReadBack g naming more) : t.TailReadBack g naming more := by
  intro k M F e q before b stream hs
  rw [Tree.write_tail hw.proper hl] at hs
  obtain ⟨rest, hgoes, hrest⟩ := goes_separator (M := M) (F := F) (e := e) (q := q) hr
    (.items before) (.tail (e :: before)) (by simp [Ends, closers])
    (fun l hl => by simp [Bracket.next?, hl.isPunct]) hs
  have hstand : Stands g naming more .argument argumentMax (.punct ']' :: k) :=
    stands_close (by decide) (Nat.le_refl _)
  have hlead := ih .argument (by simp) _ _ (.contents (.tail (e :: before)) M :: F) false rest
    hstand hrest
  refine Grammar.Leads.of_goes hr hgoes (hlead.finish fun s hs => ?_)
  obtain ⟨e', rest', hgoes', ⟨e'', rfl, he''⟩, hk⟩ := goes_close (by decide)
    (P := fun e' => ∃ e'', e' = .list (e :: before).reverse e'' ∧ e''.Denotes (Given naming) t)
    (fun e' l hl he' => ⟨.list (e :: before).reverse e', by simp [Bracket.next?, hl.isPunct], e',
      rfl, he'⟩) hs
  exact ⟨_, hgoes', e'', rest', rfl, he'', hk⟩

theorem readBack_list {a' : Tree} (hr : g.ops.Regular) (hw : a.Writable) (hw' : a'.Writable)
    (ih : a.ReadBack g naming more) (ih' : a'.TailReadBack g naming more) :
    (Tree.compound "." [a, a']).ReadBack g naming more := by
  intro p hp k M F b stream _ hs
  rw [Tree.write_list hp] at hs
  obtain ⟨l, rest, rfl, hl, hrest⟩ := hs.punct
  obtain ⟨l', rest', rfl⟩ := hrest.exists_cons
  obtain ⟨q, qs, hqs, hq⟩ : ∃ q qs, a.write g.ops .argument
      (a'.write g.ops .tail (.punct ']' :: k)) = q :: qs ∧ q.opens = true := hw.proper.opens (by simp) _
  have hnot : l'.isPunct "]" = false :=
    isPunct_of_not_closes (Spells.opens hq (hqs ▸ hrest)).1 (by decide)
  have htail : Ends (a'.write g.ops .tail (.punct ']' :: k)) :=
    Tree.ends_tail hw'.proper (by simp [Ends, closers])
  have hlead := ih .argument (by simp) _ _ (.contents (.items []) M :: F) false _
    (stands_argument hr htail) hrest
  refine Grammar.Leads.of_goes hr (Grammar.goes_opened (Grammar.operand_items hl hnot rest')) ?_
  refine (hlead.and_then hr fun s hs => ?_).congr Tree.clear_two
  obtain ⟨e, q', stream', rfl, -, he, hs⟩ := hs
  refine (ih' k M F e q' [] false stream' hs).finish ?_
  rintro s ⟨e', rest'', rfl, he', hk⟩
  exact ⟨_, .refl _, isBehind_of_denotes (Expr.denotes_cons he he') hk⟩

/-! ## All terms -/

/-- Every term that can be written is read back, and so is every tail of a list. -/
theorem Tree.Writable.readBack (hr : g.ops.Regular) (ht : t.Writable) :
    t.ReadBack g naming more ∧ t.TailReadBack g naming more := by
  refine Writable.tail_induction g.ops ?var ?int ?atom ?curly ?before ?behind ?list ?between ?call
    ?tail_nil ?tail_list ?tail ht
  case var => exact readBack_var
  case int => exact fun _ => readBack_int
  case atom => exact readBack_atom hr
  case curly => exact fun _ => readBack_curly hr
  case before => exact fun _ _ _ => readBack_before hr
  case behind => exact fun _ _ _ hn hb hd _ => readBack_behind hr hn hb hd
  case list => exact fun _ _ => readBack_list hr
  case between => exact fun _ _ _ _ hn hd _ _ => readBack_between hr hn hd
  case call => exact fun _ _ hc _ => readBack_call hr hc
  case tail_nil => exact tailReadBack_nil
  case tail_list => exact fun _ _ _ hw => tailReadBack_list hr hw
  case tail => exact fun _ => tailReadBack_bar hr

end PrologTerms
