import PrologTerms.Proofs.Operator
import Mathlib.Data.List.Induction
import Std.Data.HashMap.Lemmas

/-!
# Tables that are built operator by operator

However operators are defined, replaced and removed, what a table says of a name at a place is what
was said of it last. All priorities in it are from 1 to 1200, so that the priorities of operands can
be told from them.

The same holds of a table that is kept by name, with a row of three places for each name; a row is
dropped as soon as its places are all free.
-/

namespace PrologTerms

/-- What is said when an operator is defined. -/
structure Definition where
  /-- The name. -/
  name : String
  /-- The priority that is asked for, or 0 to remove the operator. -/
  priority : Nat
  /-- The class. -/
  cls : OpClass
deriving Repr, DecidableEq

namespace Definition

/-- Is it about this name at this place? -/
def isAbout (d : Definition) (name : String) (x : Fixity) : Bool :=
  d.name == name && d.cls.fixity == x

/-- The operator that it leaves in a table, if it leaves one. -/
def operator? (d : Definition) : Option OpDef :=
  if d.priority = 0 then none else some ⟨min d.priority OpTable.maxPriority, d.cls⟩

/-- The definition that counts: the last one about this name at this place. -/
def last? (ds : List Definition) (name : String) (x : Fixity) : Option Definition :=
  (ds.filter (·.isAbout name x)).getLast?

/-- The definitions that make the standard operators. -/
def standard : List Definition :=
  OpTable.standardRows.flatMap fun (priority, cls, names) => names.map fun n => ⟨n, priority, cls⟩

variable {d : Definition} {name : String} {x : Fixity}

theorem isAbout_iff : d.isAbout name x = true ↔ name = d.name ∧ x = d.cls.fixity := by
  simp only [isAbout, Bool.and_eq_true, beq_iff_eq]
  exact ⟨fun h => ⟨h.1.symm, h.2.symm⟩, fun h => ⟨h.1.symm, h.2.symm⟩⟩

theorem last?_append_singleton (ds : List Definition) (d : Definition) (name : String) (x : Fixity) :
    last? (ds ++ [d]) name x = if d.isAbout name x then some d else last? ds name x := by
  rw [last?, List.filter_append]
  by_cases h : d.isAbout name x
  · have hd : [d].filter (·.isAbout name x) = [d] := List.filter_cons_of_pos h
    rw [if_pos h, hd, List.getLast?_append, List.getLast?_singleton, Option.some_or]
  · have hd : [d].filter (·.isAbout name x) = [] := List.filter_cons_of_neg h
    rw [if_neg h, hd, List.append_nil, last?]

/-- A priority that a definition leaves in a table is one that an operator can have. -/
theorem priority_of_operator? {e : OpDef} (h : d.operator? = some e) :
    1 ≤ e.priority ∧ e.priority ≤ OpTable.maxPriority := by
  unfold operator? at h
  split at h
  · cases h
  · next hpos =>
    cases h
    have hmax : 1 ≤ OpTable.maxPriority := by decide
    exact ⟨Nat.le_min.2 ⟨Nat.one_le_iff_ne_zero.2 hpos, hmax⟩, Nat.min_le_right _ _⟩

end Definition

/-! ## Tables -/

namespace OpTable

variable {ops : OpTable} {name : String} {x : Fixity}

/-- Takes definitions one after the other. -/
def addAll (ops : OpTable) (ds : List Definition) : OpTable :=
  ds.foldl (fun ops d => ops.add d.name d.priority d.cls) ops

theorem addAll_append_singleton (ops : OpTable) (ds : List Definition) (d : Definition) :
    ops.addAll (ds ++ [d]) = (ops.addAll ds).add d.name d.priority d.cls :=
  List.foldl_append

theorem find?_add_definition (ops : OpTable) (d : Definition) (name : String) (x : Fixity) :
    (ops.add d.name d.priority d.cls).find? name x =
      if d.isAbout name x then d.operator? else ops.find? name x := by
  rw [find?_add]
  exact if_congr Definition.isAbout_iff.symm rfl rfl

/-- What was said last of a name at a place is what is found there. -/
theorem find?_addAll (ops : OpTable) (ds : List Definition) (name : String) (x : Fixity) :
    (ops.addAll ds).find? name x =
      match Definition.last? ds name x with
      | some d => d.operator?
      | none => ops.find? name x := by
  induction ds using List.reverseRecOn with
  | nil => rfl
  | append_singleton ds d ih =>
    rw [addAll_append_singleton, find?_add_definition, Definition.last?_append_singleton]
    by_cases h : d.isAbout name x
    · simp only [if_pos h]
    · simp only [if_neg h]
      exact ih

/-- Nothing is stored in vain, or with a priority that no operator can have. -/
structure Tidy (ops : OpTable) : Prop where
  /-- What is stored is what is found. -/
  found : ∀ e ∈ ops.entries, ops.find? e.1 e.2.cls.fixity = some e.2
  /-- The priorities are in their range. -/
  inRange : ∀ e ∈ ops.entries, 1 ≤ e.2.priority ∧ e.2.priority ≤ maxPriority

theorem tidy_empty : empty.Tidy := ⟨fun _ h => (by cases h), fun _ h => (by cases h)⟩

theorem tidy_standard : standard.Tidy := by
  constructor <;> decide +kernel

/-- What a table stores after a definition, it found before, or comes from the definition. -/
theorem mem_entries_add {e : String × OpDef} {priority : Nat} {cls : OpClass}
    (h : e ∈ (ops.add name priority cls).entries) :
    (e ∈ ops.entries ∧ ¬ (e.1 = name ∧ e.2.cls.fixity = cls.fixity)) ∨
      (priority ≠ 0 ∧ e = (name, ⟨min priority maxPriority, cls⟩)) := by
  have hothers : e ∈ ops.entries.filter (fun e => !(e.1 == name && e.2.stands cls.fixity)) →
      e ∈ ops.entries ∧ ¬ (e.1 = name ∧ e.2.cls.fixity = cls.fixity) := by
    intro he
    obtain ⟨he, hne⟩ := List.mem_filter.1 he
    simp only [OpDef.stands, Bool.not_eq_true', Bool.and_eq_false_imp, beq_iff_eq] at hne
    refine ⟨he, ?_⟩
    rintro ⟨hn, hx⟩
    simpa [hx] using hne hn
  unfold add at h
  dsimp only at h
  split at h
  · exact .inl (hothers h)
  · next hpos =>
    rcases List.mem_cons.1 h with rfl | h
    · exact .inr ⟨hpos, rfl⟩
    · exact .inl (hothers h)

theorem Tidy.add (h : ops.Tidy) (d : Definition) : (ops.add d.name d.priority d.cls).Tidy := by
  refine ⟨fun e he => ?_, fun e he => ?_⟩
  · rw [find?_add]
    rcases mem_entries_add he with ⟨he, hne⟩ | ⟨hpos, rfl⟩
    · rw [if_neg hne]
      exact h.found e he
    · rw [if_pos ⟨rfl, rfl⟩, if_neg hpos]
  · rcases mem_entries_add he with ⟨he, -⟩ | ⟨hpos, rfl⟩
    · exact h.inRange e he
    · exact Definition.priority_of_operator? (d := d) (by rw [Definition.operator?, if_neg hpos])

theorem Tidy.addAll (h : ops.Tidy) (ds : List Definition) : (ops.addAll ds).Tidy := by
  induction ds using List.reverseRecOn with
  | nil => exact h
  | append_singleton ds d ih =>
    rw [addAll_append_singleton]
    exact ih.add d

theorem Tidy.find?_eq_some_iff (h : ops.Tidy) {d : OpDef} :
    ops.find? name x = some d ↔ (name, d) ∈ ops.entries ∧ d.cls.fixity = x := by
  constructor
  · intro hd
    obtain ⟨hm, hx⟩ := mem_of_find? hd
    exact ⟨hm, beq_iff_eq.1 hx⟩
  · rintro ⟨hm, rfl⟩
    exact h.found _ hm

/-- The standard table is what comes of its definitions one after the other. -/
theorem find?_standard (name : String) (x : Fixity) :
    (empty.addAll Definition.standard).find? name x = standard.find? name x := by
  have hentries : (empty.addAll Definition.standard).entries = standard.entries.reverse := by
    decide +kernel
  refine Option.ext fun d => ?_
  rw [(tidy_empty.addAll _).find?_eq_some_iff, tidy_standard.find?_eq_some_iff, hentries,
    List.mem_reverse]

end OpTable

namespace OpDef

/-- There is room below every priority that an operator can have. -/
theorem leftMax?_eq {d : OpDef} (h : 1 ≤ d.priority) : d.leftMax? = some d.leftMax := by
  have hpos : d.priority ≠ 0 := Nat.one_le_iff_ne_zero.1 h
  unfold leftMax? leftMax
  rw [if_neg hpos]
  split <;> rfl

theorem rightMax?_eq {d : OpDef} (h : 1 ≤ d.priority) : d.rightMax? = some d.rightMax := by
  have hpos : d.priority ≠ 0 := Nat.one_le_iff_ne_zero.1 h
  unfold rightMax? rightMax
  rw [if_neg hpos]
  split <;> rfl

end OpDef

/-! ## Tables by name -/

/-- The places of a name. -/
structure Places where
  /-- Before an operand. -/
  before : Option OpDef := none
  /-- Between operands. -/
  between : Option OpDef := none
  /-- Behind an operand. -/
  behind : Option OpDef := none

namespace Places

/-- What stands at a place. -/
def get (p : Places) : Fixity → Option OpDef
  | .before => p.before
  | .between => p.between
  | .behind => p.behind

/-- Puts something at a place, or frees it. -/
def set (p : Places) (d : Option OpDef) : Fixity → Places
  | .before => { p with before := d }
  | .between => { p with between := d }
  | .behind => { p with behind := d }

/-- Are all places free? -/
def isFree (p : Places) : Bool := p.before.isNone && p.between.isNone && p.behind.isNone

theorem get_set (p : Places) (d : Option OpDef) (x y : Fixity) :
    (p.set d x).get y = if y = x then d else p.get y := by
  cases x <;> cases y <;> rfl

theorem get_free (x : Fixity) : ({} : Places).get x = none := by cases x <;> rfl

theorem isFree_iff {p : Places} : p.isFree = true ↔ ∀ x, p.get x = none := by
  simp only [isFree, Bool.and_eq_true, Option.isNone_iff_eq_none]
  exact ⟨fun ⟨⟨h₁, h₂⟩, h₃⟩ x => by cases x <;> assumption, fun h => ⟨⟨h .before, h .between⟩, h .behind⟩⟩

theorem isFree_set_some (p : Places) (d : OpDef) (x : Fixity) :
    (p.set (some d) x).isFree = false := by
  rw [Bool.eq_false_iff]
  intro hfree
  have hx := isFree_iff.1 hfree x
  rw [get_set, if_pos rfl] at hx
  cases hx

end Places

/-- A collection of operators, by name. -/
structure NameTable where
  /-- The places of the names that are operators. -/
  rows : Std.HashMap String Places := {}

namespace NameTable

/-- Defines an operator in place of the one of the same name and place, or removes it. -/
def add (t : NameTable) (name : String) (priority : Nat) (cls : OpClass) : NameTable :=
  if priority = 0 then
    match t.rows[name]? with
    | none => t
    | some p =>
      let p := p.set none cls.fixity
      if p.isFree then ⟨t.rows.erase name⟩ else ⟨t.rows.insert name p⟩
  else
    let d : OpDef := ⟨min priority OpTable.maxPriority, cls⟩
    ⟨t.rows.insert name ((t.rows[name]?.getD {}).set (some d) cls.fixity)⟩

/-- Takes definitions one after the other. -/
def addAll (t : NameTable) (ds : List Definition) : NameTable :=
  ds.foldl (fun t d => t.add d.name d.priority d.cls) t

/-- The operator of a name that stands at a place. -/
def find? (t : NameTable) (name : String) (x : Fixity) : Option OpDef :=
  t.rows[name]?.bind (·.get x)

/-- Is the name an operator, wherever it stands? -/
def isOp (t : NameTable) (name : String) : Bool := t.rows.contains name

/-- The table of the standard operators, as it is built. -/
def standard : NameTable := ({} : NameTable).addAll Definition.standard

variable {t : NameTable} {name : String} {x : Fixity}

/-- A definition replaces the row of its name, or drops it, and touches no other. -/
theorem find?_add (t : NameTable) (d : Definition) (name : String) (x : Fixity) :
    (t.add d.name d.priority d.cls).find? name x =
      if d.isAbout name x then d.operator? else t.find? name x := by
  have habout : d.isAbout d.name x = true ↔ x = d.cls.fixity := by
    rw [Definition.isAbout_iff]
    exact and_iff_right rfl
  unfold add Definition.operator?
  by_cases hname : d.name = name
  · subst hname
    rw [if_congr habout rfl rfl]
    split
    · split
      · next hrow => simp [find?, hrow]
      · next p hrow =>
        dsimp only
        split
        · next hfree =>
          have hx := Places.isFree_iff.1 hfree x
          rw [Places.get_set] at hx
          simp only [find?, Std.HashMap.getElem?_erase_self, hrow, Option.bind_none, Option.bind_some]
          exact hx.symm
        · simp only [find?, Std.HashMap.getElem?_insert_self, hrow, Option.bind_some, Places.get_set]
    · simp only [find?, Std.HashMap.getElem?_insert_self, Option.bind_some, Places.get_set]
      cases t.rows[d.name]? with
      | none => rw [Option.getD_none, Places.get_free, Option.bind_none]
      | some p => rw [Option.getD_some, Option.bind_some]
  · rw [if_neg fun h => hname (Definition.isAbout_iff.1 h).1.symm]
    split
    · split
      · rfl
      · dsimp only
        split
        · rw [find?, Std.HashMap.getElem?_erase, if_neg (by simpa using hname), find?]
        · rw [find?, Std.HashMap.getElem?_insert, if_neg (by simpa using hname), find?]
    · rw [find?, Std.HashMap.getElem?_insert, if_neg (by simpa using hname), find?]

/-- No name has a row without operators. -/
def NoneFree (t : NameTable) : Prop :=
  ∀ (name : String) (p : Places), t.rows[name]? = some p → p.isFree = false

theorem noneFree_empty : ({} : NameTable).NoneFree := by
  intro name p h
  rw [Std.HashMap.getElem?_empty] at h
  cases h

theorem NoneFree.insert (h : t.NoneFree) (name : String) {p : Places} (hp : p.isFree = false) :
    (NameTable.mk (t.rows.insert name p)).NoneFree := by
  intro n q hq
  rw [Std.HashMap.getElem?_insert] at hq
  split at hq
  · cases hq
    exact hp
  · exact h n q hq

theorem NoneFree.erase (h : t.NoneFree) (name : String) :
    (NameTable.mk (t.rows.erase name)).NoneFree := by
  intro n q hq
  rw [Std.HashMap.getElem?_erase] at hq
  split at hq
  · cases hq
  · exact h n q hq

theorem NoneFree.add (h : t.NoneFree) (name : String) (priority : Nat) (cls : OpClass) :
    (t.add name priority cls).NoneFree := by
  unfold NameTable.add
  split
  · split
    · exact h
    · dsimp only
      split
      · exact h.erase name
      · next hfree => exact h.insert name (Bool.eq_false_iff.2 hfree)
  · exact h.insert name (Places.isFree_set_some _ _ _)

/-- The names with a row are the names that are found at some place. -/
theorem NoneFree.isOp_iff (h : t.NoneFree) : t.isOp name = true ↔ ∃ x d, t.find? name x = some d := by
  rw [isOp, Std.HashMap.contains_eq_isSome_getElem?, Option.isSome_iff_exists]
  constructor
  · rintro ⟨p, hp⟩
    have hfree : ¬ ∀ x, p.get x = none := by
      rw [← Places.isFree_iff, h name p hp]
      exact Bool.false_ne_true
    obtain ⟨x, hx⟩ := not_forall.1 hfree
    obtain ⟨d, hd⟩ := Option.ne_none_iff_exists'.1 hx
    exact ⟨x, d, by rw [find?, hp, Option.bind_some, hd]⟩
  · rintro ⟨x, d, hd⟩
    obtain ⟨p, hp, -⟩ := Option.bind_eq_some_iff.1 hd
    exact ⟨p, hp⟩

theorem addAll_append_singleton (t : NameTable) (ds : List Definition) (d : Definition) :
    t.addAll (ds ++ [d]) = (t.addAll ds).add d.name d.priority d.cls :=
  List.foldl_append

theorem NoneFree.addAll (h : t.NoneFree) (ds : List Definition) : (t.addAll ds).NoneFree := by
  induction ds using List.reverseRecOn with
  | nil => exact h
  | append_singleton ds d ih =>
    rw [addAll_append_singleton]
    exact ih.add _ _ _

/-- Tables that find the same still do so after the same definitions. -/
theorem find?_addAll_eq {ops : OpTable} (h : ∀ name x, t.find? name x = ops.find? name x)
    (ds : List Definition) (name : String) (x : Fixity) :
    (t.addAll ds).find? name x = (ops.addAll ds).find? name x := by
  induction ds using List.reverseRecOn with
  | nil => exact h name x
  | append_singleton ds d ih =>
    rw [addAll_append_singleton, OpTable.addAll_append_singleton, find?_add,
      OpTable.find?_add_definition, ih]

theorem find?_empty (name : String) (x : Fixity) :
    ({} : NameTable).find? name x = OpTable.empty.find? name x := by
  rw [find?, Std.HashMap.getElem?_empty]
  rfl

end NameTable

/-! ## All tables -/

/-- What a table is before anything is defined in it. -/
inductive Origin
  /-- A table without operators. -/
  | empty
  /-- The table of the standard operators. -/
  | standard
deriving Repr, DecidableEq

namespace Origin

/-- The table that definitions are added to. -/
def table : Origin → OpTable
  | .empty => .empty
  | .standard => .standard

/-- The same table by name. -/
def nameTable : Origin → NameTable
  | .empty => {}
  | .standard => .standard

theorem tidy_table (o : Origin) : o.table.Tidy := by
  cases o with
  | empty => exact OpTable.tidy_empty
  | standard => exact OpTable.tidy_standard

theorem noneFree_nameTable (o : Origin) : o.nameTable.NoneFree := by
  cases o with
  | empty => exact NameTable.noneFree_empty
  | standard => exact NameTable.noneFree_empty.addAll _

theorem find?_nameTable (o : Origin) (name : String) (x : Fixity) :
    o.nameTable.find? name x = o.table.find? name x := by
  cases o with
  | empty => exact NameTable.find?_empty name x
  | standard =>
    exact (NameTable.find?_addAll_eq NameTable.find?_empty _ name x).trans (OpTable.find?_standard name x)

end Origin

namespace OpTable

/-- A table is a faithful map with safe priorities, whatever has been defined in it and in whichever
order. A name has at a place what the last definition about both says, with the priority capped, or
nothing if that has the priority 0, or else what it has in the standard table, if that is what the
table was begun with. The operators are the names that have something at some place. What is stored
has a priority from 1 to 1200, so there is a priority below it for the operands of every operator
that is looked up, and keeping the table by name makes no difference. -/
theorem addAll_faithful (o : Origin) (ds : List Definition) :
    (∀ name x, (o.table.addAll ds).find? name x =
      match (ds.filter fun d => d.name == name && d.cls.fixity == x).getLast? with
      | some d => if d.priority = 0 then none else some ⟨min d.priority 1200, d.cls⟩
      | none => o.table.find? name x) ∧
    (∀ name, (o.table.addAll ds).isOp name = true ↔
      ∃ x d, (o.table.addAll ds).find? name x = some d) ∧
    (∀ e ∈ (o.table.addAll ds).entries, 1 ≤ e.2.priority ∧ e.2.priority ≤ 1200 ∧
      (o.table.addAll ds).find? e.1 e.2.cls.fixity = some e.2) ∧
    (∀ name d, (o.table.addAll ds).before? name = some d ∨ (o.table.addAll ds).between? name = some d ∨
        (o.table.addAll ds).behind? name = some d →
      d.leftMax? = some d.leftMax ∧ d.rightMax? = some d.rightMax) ∧
    (∀ name x, (o.nameTable.addAll ds).find? name x = (o.table.addAll ds).find? name x) ∧
    (∀ name, (o.nameTable.addAll ds).isOp name = (o.table.addAll ds).isOp name) := by
  have htidy := o.tidy_table.addAll ds
  have hsame := NameTable.find?_addAll_eq o.find?_nameTable ds
  refine ⟨fun name x => ?_, fun name => isOp_iff, fun e he => ?_, fun name d hd => ?_, hsame,
    fun name => ?_⟩
  · exact find?_addAll o.table ds name x
  · exact ⟨(htidy.inRange e he).1, (htidy.inRange e he).2, htidy.found e he⟩
  · have hm : (name, d) ∈ (o.table.addAll ds).entries := by
      rcases hd with hd | hd | hd <;> exact (mem_of_find? hd).1
    have hpos := (htidy.inRange _ hm).1
    exact ⟨OpDef.leftMax?_eq hpos, OpDef.rightMax?_eq hpos⟩
  · rw [Bool.eq_iff_iff, (o.noneFree_nameTable.addAll ds).isOp_iff, isOp_iff]
    simp only [hsame]

/-- Operators that are defined, replaced and removed again: a removed name is no operator any more,
a name keeps its other places, and a great priority is capped. -/
theorem addAll_faithful_likes :
    let ds : List Definition :=
      [⟨"likes", 700, .xfx⟩, ⟨"likes", 3000, .yfx⟩, ⟨"is", 0, .xfy⟩, ⟨"-", 0, .fx⟩]
    let ops := Origin.standard.table.addAll ds
    ops.find? "likes" .between = some ⟨1200, .yfx⟩ ∧ ops.find? "-" .before = none ∧
      ops.isOp "-" = true ∧ ops.isOp "is" = false ∧
      (("likes", ⟨1200, .yfx⟩) ∈ ops.entries ∧ 1 ≤ 1200) ∧
      ops.between? "likes" = some ⟨1200, .yfx⟩ ∧
      (⟨1200, .yfx⟩ : OpDef).leftMax? = some 1200 ∧ (⟨1200, .yfx⟩ : OpDef).rightMax? = some 1199 := by
  intro ds ops
  obtain ⟨hfind, hop, hrange, hmax, -, -⟩ := addAll_faithful .standard ds
  have hlikes : ops.find? "likes" .between = some ⟨1200, .yfx⟩ := hfind "likes" .between
  have hmem : ("likes", ⟨1200, .yfx⟩) ∈ ops.entries := (mem_of_find? hlikes).1
  have hbefore : ops.find? "-" .before = none := hfind "-" .before
  have hminus : ops.find? "-" .between = some ⟨500, .yfx⟩ :=
    (hfind "-" .between).trans (by decide +kernel)
  have hnone : ∀ x, ops.find? "is" x = none := fun x =>
    (hfind "is" x).trans (by cases x <;> decide +kernel)
  have his : ops.isOp "is" = false := by
    rw [Bool.eq_false_iff, Ne, hop "is"]
    rintro ⟨x, d, hd⟩
    rw [hnone x] at hd
    cases hd
  exact ⟨hlikes, hbefore, (hop "-").2 ⟨.between, _, hminus⟩, his, ⟨hmem, (hrange _ hmem).1⟩, hlikes,
    hmax "likes" _ (.inr (.inl hlikes))⟩

end OpTable

end PrologTerms
