import PrologTerms.Proofs.Heap.Growth
import PrologTerms.Proofs.Reading.Draft
import PrologTerms.Proofs.Reading.Meaning

/-!
# Terms on the heap mean what was read

The term that is built for an expression has a tree that the expression means: the names in it mean the
variables of the clause, and `_` means a new variable each time. So two variables of the tree are the
same only where the text has the same name.
-/

namespace PrologTerms.Draft

variable {d d' : Draft} {x y : String} {i : Address}

/-- The name means the variable in the clause that is being read. -/
def Means (d : Draft) (x : String) (i : Address) : Prop := x ≠ "_" → d.scope.lookup x = some (.ref i)

/-- The variables of the clause are unbound, and different for different names. -/
structure Scoped (d : Draft) : Prop where
  /-- Every name stands for an unbound variable. -/
  unbound : ∀ x c, d.scope.lookup x = some c → ∃ i, c = .ref i ∧ d.heap.get? i = some (.ref i)
  /-- No two names stand for the same variable. -/
  inj : ∀ x y c, d.scope.lookup x = some c → d.scope.lookup y = some c → x = y
  /-- A variable is known by its name. -/
  known : ∀ x i, d.scope.lookup x = some (.ref i) → d.names.lookup i = some x

/-- Names keep their meaning. -/
def KeepsNames (d d' : Draft) : Prop :=
  ∀ x c, d.scope.lookup x = some c → d'.scope.lookup x = some c

theorem KeepsNames.means (h : d.KeepsNames d') {i : Address} (hm : d.Means x i) : d'.Means x i :=
  fun hx => h x _ (hm hx)

theorem Scoped.grow (hs : d.Scoped) (hg : d.heap.Grows d'.heap) (he : d'.scope = d.scope)
    (hn : d'.names = d.names) : d'.Scoped := by
  refine ⟨fun x c hx => ?_, fun x y c hx hy => ?_, fun x i hx => ?_⟩
  · rw [he] at hx
    obtain ⟨i, rfl, hi⟩ := hs.unbound x c hx
    exact ⟨i, rfl, hg.get?_eq_some hi⟩
  · rw [he] at hx hy
    exact hs.inj x y c hx hy
  · rw [he] at hx
    rw [hn]
    exact hs.known x i hx

theorem scoped_of_nil (h : d.scope = []) : d.Scoped :=
  ⟨by simp [h], by simp [h], by simp [h]⟩

/-- Variables that are new to the clause are new to the heap, and all others are known as before. -/
structure Freshens (d d' : Draft) : Prop where
  /-- No slot is removed. -/
  size_le : d.heap.size ≤ d'.heap.size
  /-- New names have new variables. -/
  fresh : ∀ x i, d'.scope.lookup x = some (.ref i) →
    d.scope.lookup x = some (.ref i) ∨ d.heap.size ≤ i
  /-- Old variables have their old names. -/
  known : ∀ i : Nat, i < d.heap.size → d'.names.lookup i = d.names.lookup i

/-- The name stands for the variable; `_` stands for a variable without a name that was made
meanwhile. -/
def StandsFor (d d' : Draft) (x : String) (i : Address) : Prop :=
  if x = "_" then d.heap.size ≤ i ∧ i < d'.heap.size ∧ ∀ y, d'.scope.lookup y ≠ some (.ref i)
  else d'.scope.lookup x = some (.ref i)

/-- The names stand for the variables, and `_` stands for a younger one each time. -/
structure Assigns (d d' : Draft) (xs : List String) (is : List Address) : Prop where
  /-- Each name stands for its variable. -/
  each : List.Forall₂ (StandsFor d d') xs is
  /-- No two `_` stand for the same variable. -/
  younger : (xs.zip is).Pairwise fun p q => p.1 = "_" → q.1 = "_" → p.2 < q.2

/-- What building an expression does to the names of the clause, and what it gives. -/
structure Builds (d : Draft) (e : Expr) (c : Cell) (d' : Draft) : Prop where
  /-- The variables are in order. -/
  scope : d'.Scoped
  /-- The names of variables are kept. -/
  keeps : d.KeepsNames d'
  /-- New names have new variables. -/
  fresh : d.Freshens d'
  /-- The term has a tree that the expression means. -/
  tree : ∃ t, d'.heap.resolve? d'.atoms c = some t ∧ e.Denotes d'.Means t ∧
    d.Assigns d' e.varNames t.vars

variable {d'' : Draft} {xs ys : List String} {is js : List Address}

theorem Freshens.refl (d : Draft) : d.Freshens d :=
  ⟨Nat.le_refl _, fun _ _ h => .inl h, fun _ _ => rfl⟩

theorem Freshens.trans (h₁ : d.Freshens d') (h₂ : d'.Freshens d'') : d.Freshens d'' := by
  refine ⟨Nat.le_trans h₁.size_le h₂.size_le, fun x i hi => ?_, fun i hi => ?_⟩
  · rcases h₂.fresh x i hi with hi | hi
    · exact h₁.fresh x i hi
    · exact .inr (Nat.le_trans h₁.size_le hi)
  · rw [h₂.known i (Nat.lt_of_lt_of_le hi h₁.size_le), h₁.known i hi]

theorem Freshens.of_scope (hg : d.heap.Grows d'.heap) (he : d'.scope = d.scope)
    (hn : d'.names = d.names) : d.Freshens d' :=
  ⟨hg.size_le, fun _ _ h => .inl (he ▸ h), fun _ _ => by rw [hn]⟩

theorem Assigns.nil (d d' : Draft) : d.Assigns d' [] [] := ⟨.nil, .nil⟩

theorem StandsFor.before (h : d.StandsFor d' x i) (hk : d'.KeepsNames d'') (hf : d'.Freshens d'') :
    d.StandsFor d'' x i := by
  unfold StandsFor at h ⊢
  by_cases hx : x = "_"
  · rw [if_pos hx] at h ⊢
    refine ⟨h.1, Nat.lt_of_lt_of_le h.2.1 hf.size_le, fun y hy => ?_⟩
    rcases hf.fresh y i hy with hy | hy
    · exact h.2.2 y hy
    · exact absurd hy (Nat.not_le_of_lt h.2.1)
  · rw [if_neg hx] at h ⊢
    exact hk x _ h

theorem StandsFor.behind (h : d'.StandsFor d'' x i) (hf : d.Freshens d') : d.StandsFor d'' x i := by
  unfold StandsFor at h ⊢
  by_cases hx : x = "_"
  · rw [if_pos hx] at h ⊢
    exact ⟨Nat.le_trans hf.size_le h.1, h.2⟩
  · rwa [if_neg hx] at h ⊢

/-- What was assigned stays so while more is built. -/
theorem Assigns.before (h : d.Assigns d' xs is) (hk : d'.KeepsNames d'') (hf : d'.Freshens d'') :
    d.Assigns d'' xs is :=
  ⟨h.each.imp fun _ _ hi => hi.before hk hf, h.younger⟩

theorem Assigns.behind (h : d'.Assigns d'' xs is) (hf : d.Freshens d') : d.Assigns d'' xs is :=
  ⟨h.each.imp fun _ _ hi => hi.behind hf, h.younger⟩

/-- Names that come later stand for younger variables, if they are new. -/
theorem Assigns.append (h : d.Assigns d' xs is) (h' : d'.Assigns d'' ys js)
    (hk : d'.KeepsNames d'') (hf : d.Freshens d') (hf' : d'.Freshens d'') :
    d.Assigns d'' (xs ++ ys) (is ++ js) := by
  refine ⟨List.rel_append (h.before hk hf').each (h'.behind hf).each, ?_⟩
  rw [List.zip_append h.each.length_eq]
  refine List.pairwise_append.2 ⟨h.younger, h'.younger, fun p hp q hq hpx hqx => ?_⟩
  have hp : d.StandsFor d' p.1 p.2 := (List.forall₂_iff_zip.1 h.each).2 hp
  have hq : d'.StandsFor d'' q.1 q.2 := (List.forall₂_iff_zip.1 h'.each).2 hq
  rw [StandsFor, if_pos hpx] at hp
  rw [StandsFor, if_pos hqx] at hq
  exact Nat.lt_of_lt_of_le hp.2.1 hq.1

theorem assigns_one (h : d.StandsFor d' x i) : d.Assigns d' [x] [i] :=
  ⟨.cons h .nil, List.pairwise_singleton _ _⟩

/-! ## Variables -/

theorem lookup_cons_eq_some {scope : List (String × Cell)} {c c' : Cell} :
    ((x, c) :: scope).lookup y = some c' ↔ y = x ∧ c = c' ∨ y ≠ x ∧ scope.lookup y = some c' := by
  by_cases h : y = x
  · subst h
    simp [List.lookup_cons_self]
  · rw [List.lookup_cons, beq_eq_false_iff_ne.2 h]
    simp [h]

theorem Scoped.lookup_ne_newVar (hs : d.Scoped) (y : String) :
    d.scope.lookup y ≠ some (.ref d.heap.size) := by
  intro hy
  obtain ⟨i, e, hi⟩ := hs.unbound y _ hy
  cases e
  exact absurd (Arena.lt_size_of_get? hi) (Nat.lt_irrefl _)

/-- The draft with a new variable of the given name. -/
def named (d : Draft) (x : String) : Draft :=
  { d with
    heap := d.heap.newVar.2
    names := (d.heap.size, x) :: d.names
    scope := (x, .ref d.heap.size) :: d.scope }

theorem get?_newVar (d : Draft) : d.heap.newVar.2.get? d.heap.size = some (.ref d.heap.size) := by
  simp [Heap.newVar, Arena.get?_push]

theorem lookup_named (x y : String) (c : Cell) : (d.named x).scope.lookup y = some c ↔
    y = x ∧ .ref d.heap.size = c ∨ y ≠ x ∧ d.scope.lookup y = some c :=
  lookup_cons_eq_some

theorem Scoped.named (hs : d.Scoped) (x : String) : (d.named x).Scoped := by
  have hg : d.heap.Grows (d.named x).heap := Heap.grows_push _ _
  refine ⟨fun y c hy => ?_, fun y z c hy hz => ?_, fun y i hy => ?_⟩
  · rcases (lookup_named x y c).1 hy with ⟨-, rfl⟩ | ⟨-, hy⟩
    · exact ⟨_, rfl, d.get?_newVar⟩
    · obtain ⟨i, rfl, hi⟩ := hs.unbound y c hy
      exact ⟨i, rfl, hg.get?_eq_some hi⟩
  · rcases (lookup_named x y c).1 hy with ⟨rfl, rfl⟩ | ⟨-, hy'⟩
    · rcases (lookup_named y z _).1 hz with ⟨rfl, -⟩ | ⟨-, hz'⟩
      · rfl
      · exact absurd hz' (hs.lookup_ne_newVar z)
    · rcases (lookup_named x z c).1 hz with ⟨-, rfl⟩ | ⟨-, hz'⟩
      · exact absurd hy' (hs.lookup_ne_newVar y)
      · exact hs.inj y z c hy' hz'
  · show ((d.heap.size, x) :: d.names).lookup i = some y
    rcases (lookup_named x y _).1 hy with ⟨rfl, e⟩ | ⟨-, hy⟩
    · cases e
      exact List.lookup_cons_self
    · have hne : i ≠ d.heap.size := fun e => hs.lookup_ne_newVar y (e ▸ hy)
      rw [List.lookup_cons, beq_eq_false_iff_ne.2 hne]
      exact hs.known y i hy

theorem freshens_named (d : Draft) (x : String) : d.Freshens (d.named x) := by
  have hg : d.heap.Grows (d.named x).heap := Heap.grows_push _ _
  refine ⟨hg.size_le, fun y i hy => ?_, fun i hi => ?_⟩
  · rcases (lookup_named x y _).1 hy with ⟨-, e⟩ | ⟨-, hy⟩
    · cases e
      exact .inr (Nat.le_refl _)
    · exact .inl hy
  · show ((d.heap.size, x) :: d.names).lookup i = d.names.lookup i
    rw [List.lookup_cons, beq_eq_false_iff_ne.2 (Nat.ne_of_lt hi)]

theorem builds_var (hs : d.Scoped) (x : String) : d.Builds (.var x) (d.var x).1 (d.var x).2 := by
  have hg : d.heap.Grows d.heap.newVar.2 := Heap.grows_push _ _
  have htree := Heap.resolve?_ref d.atoms d.get?_newVar
  unfold var
  split
  · next hx =>
    refine ⟨hs.grow hg rfl rfl, fun _ _ h => h, .of_scope hg rfl rfl, _, htree, ⟨_, rfl, ?_⟩,
      assigns_one ?_⟩
    · exact fun h => absurd hx h
    · rw [StandsFor, if_pos hx]
      exact ⟨Nat.le_refl _, Arena.lt_size_of_get? d.get?_newVar, hs.lookup_ne_newVar⟩
  · next hx =>
    split
    · next c hc =>
      obtain ⟨i, rfl, hi⟩ := hs.unbound x c hc
      refine ⟨hs, fun _ _ h => h, .refl d, _, Heap.resolve?_ref _ hi, ⟨i, rfl, fun _ => hc⟩,
        assigns_one ?_⟩
      rwa [StandsFor, if_neg hx]
    · next hnone =>
      have hself : (d.named x).scope.lookup x = some (.ref d.heap.size) :=
        (lookup_named x x _).2 (.inl ⟨rfl, rfl⟩)
      have hkeeps : d.KeepsNames (d.named x) := by
        intro y c hy
        refine (lookup_named x y c).2 (.inr ⟨?_, hy⟩)
        rintro rfl
        rw [hnone] at hy
        cases hy
      refine ⟨hs.named x, hkeeps, freshens_named d x, _, htree, ⟨_, rfl, fun _ => hself⟩,
        assigns_one ?_⟩
      rwa [StandsFor, if_neg hx]

/-! ## Expressions -/

/-- What building several expressions does and gives. -/
structure BuildsAll (d : Draft) (es : List Expr) (cs : List Cell) (d' : Draft) : Prop where
  /-- The variables are in order. -/
  scope : d'.Scoped
  /-- The names of variables are kept. -/
  keeps : d.KeepsNames d'
  /-- New names have new variables. -/
  fresh : d.Freshens d'
  /-- The terms have trees that the expressions mean. -/
  trees : ∃ ts, List.Forall₂ (fun c t => d'.heap.resolve? d'.atoms c = some t) cs ts ∧
    Expr.DenotesAll d'.Means es ts ∧ d.Assigns d' (Expr.varNamesAll es) (ts.flatMap Tree.vars)

/-- Trees of terms stay what they are when more is built. -/
theorem Grows.forall₂_resolve? (hg : d.Grows d') (hd : d.Sound) {cs : List Cell} {ts : List Tree}
    (hcs : ∀ c ∈ cs, d.heap.IsTerm d.atoms.size c)
    (h : List.Forall₂ (fun c t => d.heap.resolve? d.atoms c = some t) cs ts) :
    List.Forall₂ (fun c t => d'.heap.resolve? d'.atoms c = some t) cs ts := by
  induction h with
  | nil => exact .nil
  | cons h _ ih =>
    refine .cons (hg.heap.resolve? hg.atoms hd.heap (hcs _ List.mem_cons_self) h) (ih ?_)
    exact fun c hc => hcs c (List.mem_cons_of_mem _ hc)

/-- The tree of a compound term is made up of those of its arguments. -/
theorem Stages.resolve? {before behind : List Expr} {name : String} {as bs : List Cell} {a : AtomId}
    {d₁ d₃ : Draft} {ts : List Tree} (h : d.Stages before name behind as bs a d₁ d₃)
    (hts : List.Forall₂ (fun c t => d₃.heap.resolve? d₃.atoms c = some t) (as ++ bs) ts) :
    (d₃.newCompound ⟨a, as.length + bs.length⟩ (as ++ bs)).2.heap.resolve?
      (d₃.newCompound ⟨a, as.length + bs.length⟩ (as ++ bs)).2.atoms
      (d₃.newCompound ⟨a, as.length + bs.length⟩ (as ++ bs)).1 = some (.compound name ts) := by
  have htree := Heap.resolve?_newCompound (f := ⟨a, as.length + bs.length⟩) h.leads₃.1.heap
    List.length_append.symm h.terms h.pos hts
  rwa [h.name.2] at htree

mutual

/-- The term built for an expression has a tree that the expression means. -/
theorem builds_build : ∀ {d : Draft} (_ : d.Sound) (_ : d.Scoped) (e : Expr), e.WellFormed →
    d.Builds e (d.build e).1 (d.build e).2
  | _, _, hs, .var x, _ => builds_var hs x
  | d, _, hs, .int n, _ => ⟨hs, fun _ _ h => h, .refl d, .int n, rfl, rfl, .nil _ _⟩
  | d, hd, hs, .atom name, _ => by
    have hname := (AtomTable.intern_spec hd.atoms name).2.2.2
    refine ⟨hs.grow (.refl _) rfl rfl, fun _ _ h => h, .of_scope (.refl _) rfl rfl, .atom name, ?_, rfl,
      .nil _ _⟩
    exact congrArg (fun s => some (Tree.atom s)) hname
  | d, hd, hs, .compound before name behind, he@(.compound _ _ hbefore hbehind) => by
    obtain ⟨as, bs, a, d₁, d₃, h⟩ := exists_stages hd he
    have hb₁ := builds_buildAll hd hs before hbefore
    rw [h.first] at hb₁
    have hs₂ : (d₁.intern name).2.Scoped := hb₁.scope.grow (.refl _) rfl rfl
    have hb₃ := builds_buildAll h.leads₂.1 hs₂ behind hbehind
    rw [h.third] at hb₃
    obtain ⟨ts, hts, hdts, hats⟩ := hb₁.trees
    obtain ⟨us, hus, hdus, haus⟩ := hb₃.trees
    have hk₁₃ : d₁.KeepsNames d₃ := fun x c h => hb₃.keeps x c h
    have hf₂ : d₁.Freshens (d₁.intern name).2 := .of_scope (.refl _) rfl rfl
    have hf₁₃ : d₁.Freshens d₃ := hf₂.trans hb₃.fresh
    have hf₄ : d₃.Freshens (d₃.newCompound ⟨a, as.length + bs.length⟩ (as ++ bs)).2 :=
      .of_scope (Heap.grows_newCompound _ _ _) rfl rfl
    have hts' := (h.leads₂.trans h.leads₃).2.forall₂_resolve? h.leads₁.1 h.terms₁ hts
    rw [h.build]
    refine ⟨hb₃.scope.grow (Heap.grows_newCompound _ _ _) rfl rfl, fun x c hx => ?_,
      (hb₁.fresh.trans hf₁₃).trans hf₄, _, h.resolve? (List.rel_append hts' hus),
      ⟨ts, us, rfl, hdts.mono fun x i hm => hk₁₃.means hm, hdus⟩, ?_⟩
    · exact hk₁₃ x c (hb₁.keeps x c hx)
    · rw [Tree.vars_compound, List.flatMap_append]
      exact (hats.append (haus.behind hf₂) hk₁₃ hb₁.fresh hf₁₃).before (fun _ _ h => h) hf₄

theorem builds_buildAll : ∀ {d : Draft} (_ : d.Sound) (_ : d.Scoped) (es : List Expr),
    (∀ e ∈ es, e.WellFormed) → d.BuildsAll es (d.buildAll es).1 (d.buildAll es).2
  | d, _, hs, [], _ => ⟨hs, fun _ _ h => h, .refl d, [], .nil, rfl, .nil _ _⟩
  | d, hd, hs, e :: es, hes => by
    have he := hes e List.mem_cons_self
    have hes' : ∀ e' ∈ es, e'.WellFormed := fun e' he' => hes e' (List.mem_cons_of_mem e he')
    obtain ⟨h₁, ht₁⟩ := sound_build hd e he
    have hb₁ := builds_build hd hs e he
    obtain ⟨h₂, -⟩ := sound_buildAll h₁.1 es hes'
    have hb₂ := builds_buildAll h₁.1 hb₁.scope es hes'
    obtain ⟨t, ht, hdt, hat⟩ := hb₁.tree
    obtain ⟨ts, hts, hdts, hats⟩ := hb₂.trees
    refine ⟨hb₂.scope, fun x c h => hb₂.keeps x c (hb₁.keeps x c h), hb₁.fresh.trans hb₂.fresh,
      t :: ts, .cons ?_ hts, ⟨t, ts, rfl, hdt.mono fun x i hm => hb₂.keeps.means hm, hdts⟩, ?_⟩
    · exact h₂.2.heap.resolve? h₂.2.atoms h₁.1.heap ht₁ ht
    · exact hat.append hats hb₂.keeps hb₁.fresh hb₂.fresh

end

/-- Variables with the given names are the same exactly where these are the same and no `_`. -/
structure NamedBy (xs : List String) (is : List Address) : Prop where
  /-- Each variable has a name. -/
  length_eq : xs.length = is.length
  /-- The same names are the same variables. -/
  eq_iff : ∀ (m n : Nat) x y i j, xs[m]? = some x → xs[n]? = some y → is[m]? = some i →
    is[n]? = some j → (i = j ↔ m = n ∨ x = y ∧ x ≠ "_")

/-- Names that stand for variables name them. -/
theorem Assigns.namedBy (h : d.Assigns d' xs is) (hs : d'.Scoped) : NamedBy xs is := by
  refine ⟨h.each.length_eq, fun m n x y i j hx hy hi hj => ?_⟩
  have hstands : ∀ (m : Nat) x i, xs[m]? = some x → is[m]? = some i → d.StandsFor d' x i := by
    intro m x i hx hi
    refine (List.forall₂_iff_zip.1 h.each).2 (List.mem_of_getElem? (i := m) ?_)
    exact List.getElem?_zip_eq_some.2 ⟨hx, hi⟩
  -- two `_` at different places
  have hlt : ∀ (m n : Nat) i j, m < n → xs[m]? = some "_" → xs[n]? = some "_" → is[m]? = some i →
      is[n]? = some j → i < j := by
    intro m n i j hmn hx hy hi hj
    have hp : (xs.zip is)[m]? = some ("_", i) := List.getElem?_zip_eq_some.2 ⟨hx, hi⟩
    have hq : (xs.zip is)[n]? = some ("_", j) := List.getElem?_zip_eq_some.2 ⟨hy, hj⟩
    obtain ⟨hm, hp⟩ := List.getElem?_eq_some_iff.1 hp
    obtain ⟨hn, hq⟩ := List.getElem?_eq_some_iff.1 hq
    have := List.pairwise_iff_getElem.1 h.younger m n hm hn hmn
    rw [hp, hq] at this
    exact this rfl rfl
  have h₁ := hstands m x i hx hi
  have h₂ := hstands n y j hy hj
  by_cases hmn : m = n
  · subst hmn
    rw [hi, Option.some.injEq] at hj
    simp [hj]
  · by_cases hx' : x = "_"
    · subst hx'
      have hne : i ≠ j := by
        by_cases hy' : y = "_"
        · subst hy'
          rcases Nat.lt_or_gt_of_ne hmn with hlt' | hlt'
          · exact Nat.ne_of_lt (hlt m n i j hlt' hx hy hi hj)
          · exact Nat.ne_of_gt (hlt n m j i hlt' hy hx hj hi)
        · rw [StandsFor, if_pos rfl] at h₁
          rw [StandsFor, if_neg hy'] at h₂
          rintro rfl
          exact h₁.2.2 y h₂
      simp [hmn, hne]
    · by_cases hy' : y = "_"
      · subst hy'
        rw [StandsFor, if_neg hx'] at h₁
        rw [StandsFor, if_pos rfl] at h₂
        have hne : i ≠ j := by
          rintro rfl
          exact h₂.2.2 x h₁
        simp [hmn, hne, hx']
      · rw [StandsFor, if_neg hx'] at h₁
        rw [StandsFor, if_neg hy'] at h₂
        constructor
        · rintro rfl
          exact .inr ⟨hs.inj x y _ h₁ h₂, hx'⟩
        · rintro (e | ⟨rfl, -⟩)
          · exact absurd e hmn
          · rw [h₁] at h₂
            cases h₂
            rfl

end PrologTerms.Draft
