import PrologTerms.Proofs.Reading.Build

/-!
# Names belong to variables on the heap

A name is only recorded for a new variable, when it is met in its clause for the first time. What is
recorded is never changed, and an address behind the heap has no name.
-/

namespace PrologTerms

/-- All names are those of addresses below `n`. -/
def SourceNames.Below (names : SourceNames) (n : Nat) : Prop := ∀ p ∈ names, p.1 < n

variable {names : SourceNames} {n m : Nat}

theorem SourceNames.Below.mono (h : names.Below n) (hle : n ≤ m) : names.Below m :=
  fun p hp => Nat.lt_of_lt_of_le (h p hp) hle

/-- An address that is not below has no name. -/
theorem SourceNames.Below.lookup_eq_none (h : names.Below n) {i : Address} (hi : n ≤ i) :
    names.lookup i = none := by
  rw [List.lookup_eq_none_iff]
  intro p hp
  have hne : i ≠ p.1 := fun e => Nat.not_lt_of_le hi (e ▸ h p hp)
  simpa using hne

/-- The names `names'` are `names`, and in front of them names of addresses from `n` up to `m`. -/
structure SourceNames.Extended (names : SourceNames) (n : Nat) (names' : SourceNames) (m : Nat) :
    Prop where
  size_le : n ≤ m
  added : ∃ added : SourceNames, names' = added ++ names ∧ ∀ p ∈ added, n ≤ p.1 ∧ p.1 < m

namespace SourceNames.Extended

variable {names' names'' : SourceNames} {l : Nat}

theorem refl (names : SourceNames) (n : Nat) : names.Extended n names n :=
  ⟨Nat.le_refl n, [], rfl, fun p hp => by cases hp⟩

theorem trans (h₁ : names.Extended l names' n) (h₂ : names'.Extended n names'' m) :
    names.Extended l names'' m := by
  obtain ⟨hle₁, added₁, rfl, ha₁⟩ := h₁
  obtain ⟨hle₂, added₂, rfl, ha₂⟩ := h₂
  refine ⟨Nat.le_trans hle₁ hle₂, added₂ ++ added₁, by rw [List.append_assoc], fun p hp => ?_⟩
  rcases List.mem_append.1 hp with hp | hp
  · exact ⟨Nat.le_trans hle₁ (ha₂ p hp).1, (ha₂ p hp).2⟩
  · exact ⟨(ha₁ p hp).1, Nat.lt_of_lt_of_le (ha₁ p hp).2 hle₂⟩

theorem below (h : names.Extended n names' m) (hb : names.Below n) : names'.Below m := by
  obtain ⟨hle, added, rfl, ha⟩ := h
  intro p hp
  rcases List.mem_append.1 hp with hp | hp
  · exact (ha p hp).2
  · exact Nat.lt_of_lt_of_le (hb p hp) hle

/-- Old variables keep their names. -/
theorem lookup_eq (h : names.Extended n names' m) {i : Address} (hi : i < n) :
    names'.lookup i = names.lookup i := by
  obtain ⟨-, added, rfl, ha⟩ := h
  have hnone : added.lookup i = none := by
    rw [List.lookup_eq_none_iff]
    intro p hp
    have hne : i ≠ p.1 := fun e => Nat.not_lt_of_le (ha p hp).1 (e ▸ hi)
    simpa using hne
  rw [List.lookup_append, hnone, Option.none_or]

end SourceNames.Extended

namespace Draft

/-- All names are those of variables on the heap. -/
def NamesBelow (d : Draft) : Prop := d.names.Below d.heap.size

variable {d d' d'' : Draft} {xs ys : List String}

/-! ## Inside of a clause -/

/-- What meeting the names `xs` in a clause does: those that are new in it get new variables. -/
structure Records (d d' : Draft) (xs : List String) : Prop where
  size_le : d.heap.size ≤ d'.heap.size
  keeps : d.KeepsNames d'
  added : ∃ added : SourceNames, d'.names = added ++ d.names ∧ ∀ p ∈ added,
    (d.heap.size ≤ p.1 ∧ p.1 < d'.heap.size) ∧ (p.2 ∈ xs ∧ p.2 ≠ "_") ∧
      d'.scope.lookup p.2 = some (.ref p.1)

theorem Records.of_scope (hg : d.heap.Grows d'.heap) (he : d'.scope = d.scope)
    (hn : d'.names = d.names) : d.Records d' [] :=
  ⟨hg.size_le, fun x c hx => by rwa [he], [], hn, fun p hp => by cases hp⟩

theorem Records.trans (h₁ : d.Records d' xs) (h₂ : d'.Records d'' ys) :
    d.Records d'' (xs ++ ys) := by
  obtain ⟨added₁, hn₁, ha₁⟩ := h₁.added
  obtain ⟨added₂, hn₂, ha₂⟩ := h₂.added
  have hle₁ := h₁.size_le
  have hle₂ := h₂.size_le
  refine ⟨Nat.le_trans hle₁ hle₂, fun x c hx => h₂.keeps x c (h₁.keeps x c hx), added₂ ++ added₁,
    by rw [hn₂, hn₁, List.append_assoc], fun p hp => ?_⟩
  rcases List.mem_append.1 hp with hp | hp
  · obtain ⟨⟨hlo, hhi⟩, ⟨hx, hne⟩, hscope⟩ := ha₂ p hp
    exact ⟨⟨Nat.le_trans hle₁ hlo, hhi⟩, ⟨List.mem_append_right xs hx, hne⟩, hscope⟩
  · obtain ⟨⟨hlo, hhi⟩, ⟨hx, hne⟩, hscope⟩ := ha₁ p hp
    exact ⟨⟨hlo, Nat.lt_of_lt_of_le hhi hle₂⟩, ⟨List.mem_append_left ys hx, hne⟩,
      h₂.keeps _ _ hscope⟩

theorem records_var (d : Draft) (x : String) : d.Records (d.var x).2 [x] := by
  have hsize : d.heap.newVar.2.size = d.heap.size + 1 := Arena.size_push _ _
  unfold var
  split
  · refine ⟨hsize ▸ Nat.le_succ _, fun _ _ h => h, [], rfl, ?_⟩
    intro p hp
    cases hp
  · next hx =>
    split
    · refine ⟨Nat.le_refl _, fun _ _ h => h, [], rfl, ?_⟩
      intro p hp
      cases hp
    · next hnone =>
      refine ⟨hsize ▸ Nat.le_succ _, fun y c hy => ?_, [(d.heap.size, x)], rfl, ?_⟩
      · refine (lookup_named x y c).2 (.inr ⟨?_, hy⟩)
        rintro rfl
        rw [hnone] at hy
        cases hy
      · intro p hp
        cases List.mem_singleton.1 hp
        refine ⟨⟨Nat.le_refl _, hsize ▸ Nat.lt_succ_self _⟩, ⟨List.mem_singleton_self x, hx⟩, ?_⟩
        exact (lookup_named x x _).2 (.inl ⟨rfl, rfl⟩)

mutual

theorem records_build : ∀ (d : Draft) (e : Expr), d.Records (d.build e).2 e.varNames
  | d, .var x => records_var d x
  | _, .int _ => .of_scope (.refl _) rfl rfl
  | _, .atom _ => .of_scope (.refl _) rfl rfl
  | d, .compound before name behind => by
    have h₁ := records_buildAll d before
    have h₂ : (d.buildAll before).2.Records ((d.buildAll before).2.intern name).2 [] :=
      .of_scope (.refl _) rfl rfl
    have h₃ := records_buildAll ((d.buildAll before).2.intern name).2 behind
    have h₄ : Records _ (d.build (.compound before name behind)).2 [] :=
      .of_scope (Heap.grows_newCompound _ _ _) rfl rfl
    have h := ((h₁.trans h₂).trans h₃).trans h₄
    rwa [List.append_nil, List.append_nil] at h

theorem records_buildAll : ∀ (d : Draft) (es : List Expr),
    d.Records (d.buildAll es).2 (Expr.varNamesAll es)
  | _, [] => .of_scope (.refl _) rfl rfl
  | d, e :: es => (records_build d e).trans (records_buildAll (d.build e).2 es)

end

/-- The names of the draft `d` were extended by names of new variables. -/
def AddsNames (d d' : Draft) : Prop := d.names.Extended d.heap.size d'.names d'.heap.size

theorem Records.addsNames (h : d.Records d' xs) : d.AddsNames d' := by
  obtain ⟨added, hn, ha⟩ := h.added
  exact ⟨h.size_le, added, hn, fun p hp => (ha p hp).1⟩

section

variable {is : List Address} {x : String} {i : Address}

theorem Assigns.standsFor (h : d.Assigns d' xs is) (hp : (x, i) ∈ xs.zip is) : d.StandsFor d' x i :=
  (List.forall₂_iff_zip.1 h.each).2 hp

/-- All variables of a clause are new. -/
theorem Assigns.size_le (h : d.Assigns d' xs is) (hf : d.Freshens d') (hs : d.scope = [])
    (hi : i ∈ is) : d.heap.size ≤ i := by
  have hmem : i ∈ (xs.zip is).map Prod.snd := by
    rwa [List.map_snd_zip (Nat.le_of_eq h.each.length_eq.symm)]
  obtain ⟨⟨x, j⟩, hp, rfl⟩ := List.mem_map.1 hmem
  have hx := h.standsFor hp
  unfold StandsFor at hx
  split at hx
  · exact hx.1
  · exact (hf.fresh x j hx).resolve_left (by simp [hs])

/-- The names that are added are those in the clause. -/
theorem Records.lookup_iff (hr : d.Records d' xs) (h : d.Assigns d' xs is) (hs : d'.Scoped)
    (hb : d.NamesBelow) : d'.names.lookup i = some x ↔
      d.names.lookup i = some x ∨ x ≠ "_" ∧ (x, i) ∈ xs.zip is := by
  constructor
  · intro hi
    obtain ⟨added, hnames, hadded⟩ := hr.added
    rw [hnames, List.lookup_append, Option.or_eq_some_iff] at hi
    rcases hi with hi | ⟨-, hi⟩
    · obtain ⟨l₁, l₂, hl, -⟩ := List.lookup_eq_some_iff.1 hi
      obtain ⟨-, ⟨hx, hne⟩, hscope⟩ := hadded (i, x) (by simp [hl])
      -- the name also stands for a variable of the clause, which can be no other one
      have hmem : x ∈ (xs.zip is).map Prod.fst := by
        rwa [List.map_fst_zip (Nat.le_of_eq h.each.length_eq)]
      obtain ⟨⟨y, j⟩, hp, hy⟩ := List.mem_map.1 hmem
      obtain rfl : y = x := hy
      have hj := h.standsFor hp
      rw [StandsFor, if_neg hne] at hj
      obtain rfl : j = i := Cell.ref.inj (Option.some.inj (hj.symm.trans hscope))
      exact .inr ⟨hne, hp⟩
    · exact .inl hi
  · rintro (hi | ⟨hne, hp⟩)
    · have hlt : i < d.heap.size := by
        by_contra hle
        rw [hb.lookup_eq_none (Nat.le_of_not_lt hle)] at hi
        cases hi
      exact (hr.addsNames.lookup_eq hlt).trans hi
    · have hx := h.standsFor hp
      rw [StandsFor, if_neg hne] at hx
      exact hs.known x i hx

end

/-! ## From clause to clause -/

theorem addsNames_addFragments (d : Draft) (parts : List Fragment) :
    d.AddsNames (parts.foldl addFragment d) := by
  induction parts generalizing d with
  | nil => exact .refl _ _
  | cons x parts ih =>
    have hx : d.AddsNames (d.addFragment x) := by
      cases x with
      | expr e => exact (records_build d e).addsNames
      | name s => exact .refl _ _
    exact hx.trans (ih (d.addFragment x))

theorem addsNames_addClause (d : Draft) (clause : Except ReadFailure Expr) :
    d.AddsNames (d.addClause clause).2 := by
  cases clause with
  | ok e => exact (records_build { d with scope := [] } e).addsNames
  | error f => exact addsNames_addFragments { d with scope := [] } f.parts

/-- Adding clauses, with or without errors, adds names of new variables and changes no others. -/
theorem addsNames_addClauses (d : Draft) (clauses : List (Except ReadFailure Expr)) :
    d.AddsNames (d.addClauses clauses).2 := by
  induction clauses generalizing d with
  | nil => exact .refl _ _
  | cons clause clauses ih => exact (addsNames_addClause d clause).trans (ih _)

end Draft

end PrologTerms
