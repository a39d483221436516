import PrologTerms.Proofs.Tree
import PrologTerms.Reading.Expr

/-!
# What expressions mean

An expression means a tree once it is known which variable each name means. Two trees that are meant by
the same expression differ in the variables only, and have the same number of leaves.
-/

namespace PrologTerms

/-- An atom that counts as a leaf: brackets may be written without being read as an atom. -/
def leafCount (name : String) : Nat := if name = "[]" ∨ name = "{}" then 0 else 1

/-! ## Variables and leaves of trees -/

namespace Tree

mutual

/-- The variables of a tree. -/
def vars : Tree → List Address
  | .var i => [i]
  | .compound _ args => varsAll args
  | _ => []

/-- The variables of several trees. -/
def varsAll : List Tree → List Address
  | [] => []
  | t :: ts => t.vars ++ varsAll ts

end

mutual

/-- The number of variables, integers and atoms in a tree. -/
def leaves : Tree → Nat
  | .atom name => leafCount name
  | .compound _ args => leavesAll args
  | _ => 1

/-- The number of variables, integers and atoms in several trees. -/
def leavesAll : List Tree → Nat
  | [] => 0
  | t :: ts => t.leaves + leavesAll ts

end

variable {t u : Tree}

theorem varsAll_eq_flatMap (ts : List Tree) : varsAll ts = ts.flatMap vars := by
  induction ts with
  | nil => rfl
  | cons t ts ih => rw [varsAll, ih, List.flatMap_cons]

@[simp] theorem vars_compound (name : String) (args : List Tree) :
    (compound name args).vars = args.flatMap vars := by
  rw [vars, varsAll_eq_flatMap]

theorem leavesAll_eq_sum (ts : List Tree) : leavesAll ts = (ts.map leaves).sum := by
  induction ts with
  | nil => rfl
  | cons t ts ih => rw [leavesAll, ih, List.map_cons, List.sum_cons]

@[simp] theorem leaves_compound (name : String) (args : List Tree) :
    (compound name args).leaves = (args.map leaves).sum := by
  rw [leaves, leavesAll_eq_sum]

/-- The trees are the same up to a one-to-one renaming of variables. -/
def Variant (t u : Tree) : Prop :=
  ∃ ρ : Address → Address, (∀ i ∈ t.vars, ∀ j ∈ t.vars, ρ i = ρ j → i = j) ∧
    u = t.subst fun i => .var (ρ i)

theorem leaves_subst (ρ : Address → Address) (t : Tree) :
    (t.subst fun i => .var (ρ i)).leaves = t.leaves := by
  induction t using Tree.induction with
  | compound name args ih =>
    rw [subst_compound, leaves_compound, leaves_compound, List.map_map]
    exact congrArg List.sum (List.map_congr_left ih)
  | _ => rfl

/-- Renaming variables changes no leaf into something else. -/
theorem Variant.leaves_eq (h : t.Variant u) : u.leaves = t.leaves := by
  obtain ⟨ρ, -, rfl⟩ := h
  exact leaves_subst ρ t

end Tree

/-! ## Meanings -/

namespace Expr

mutual

/-- The expression means the tree, if names mean variables as `R` says. -/
def Denotes (R : String → Address → Prop) : Expr → Tree → Prop
  | .var name, t => ∃ i, t = .var i ∧ R name i
  | .int n, t => t = .int n
  | .atom name, t => t = .atom name
  | .compound before name behind, t =>
    ∃ as bs, t = .compound name (as ++ bs) ∧ DenotesAll R before as ∧ DenotesAll R behind bs

/-- The expressions mean the trees. -/
def DenotesAll (R : String → Address → Prop) : List Expr → List Tree → Prop
  | [], ts => ts = []
  | e :: es, ts => ∃ u us, ts = u :: us ∧ e.Denotes R u ∧ DenotesAll R es us

end

mutual

/-- The number of variables, integers and atoms in an expression. -/
def leaves : Expr → Nat
  | .atom name => leafCount name
  | .compound before _ behind => leavesAll before + leavesAll behind
  | _ => 1

/-- The number of variables, integers and atoms in several expressions. -/
def leavesAll : List Expr → Nat
  | [] => 0
  | e :: es => e.leaves + leavesAll es

end

mutual

/-- The names of the variables of an expression, in the order of the text. -/
def varNames : Expr → List String
  | .var name => [name]
  | .compound before _ behind => varNamesAll before ++ varNamesAll behind
  | _ => []

/-- The names of the variables of several expressions. -/
def varNamesAll : List Expr → List String
  | [] => []
  | e :: es => e.varNames ++ varNamesAll es

end

variable {R S : String → Address → Prop} {e : Expr} {es es' : List Expr} {t u : Tree}
  {ts ts' : List Tree} {name : String}

@[simp] theorem varNames_var (name : String) : (var name).varNames = [name] := rfl

@[simp] theorem varNames_int (n : Int) : (int n).varNames = [] := rfl

@[simp] theorem varNames_atom (name : String) : (atom name).varNames = [] := rfl

@[simp] theorem varNames_compound (before behind : List Expr) (name : String) :
    (compound before name behind).varNames = varNamesAll before ++ varNamesAll behind := rfl

@[simp] theorem varNamesAll_nil : varNamesAll [] = [] := rfl

@[simp] theorem varNamesAll_cons (e : Expr) (es : List Expr) :
    varNamesAll (e :: es) = e.varNames ++ varNamesAll es := rfl

@[simp] theorem varNamesAll_append (es es' : List Expr) :
    varNamesAll (es ++ es') = varNamesAll es ++ varNamesAll es' := by
  induction es with
  | nil => rfl
  | cons e es ih => rw [List.cons_append, varNamesAll_cons, ih, varNamesAll_cons, List.append_assoc]

theorem varNames_call (name : String) (es : List Expr) :
    (call name es).varNames = varNamesAll es := rfl

theorem exists_of_denotesAll_append (h : DenotesAll R (es ++ es') ts) :
    ∃ us us', ts = us ++ us' ∧ DenotesAll R es us ∧ DenotesAll R es' us' := by
  induction es generalizing ts with
  | nil => exact ⟨[], ts, rfl, rfl, h⟩
  | cons e es ih =>
    obtain ⟨u, us, rfl, hu, hus⟩ := h
    obtain ⟨vs, vs', rfl, hvs, hvs'⟩ := ih hus
    exact ⟨u :: vs, vs', rfl, ⟨u, vs, rfl, hu, hvs⟩, hvs'⟩

theorem denotesAll_one (h : e.Denotes R t) : DenotesAll R [e] [t] := ⟨t, [], rfl, h, rfl⟩

theorem exists_of_denotesAll_one (h : DenotesAll R [e] ts) : ∃ t, ts = [t] ∧ e.Denotes R t := by
  obtain ⟨t, us, rfl, ht, hus⟩ := h
  exact ⟨t, by rw [show us = [] from hus], ht⟩

theorem denotes_call (h : DenotesAll R es ts) : (call name es).Denotes R (.compound name ts) :=
  ⟨[], ts, rfl, rfl, h⟩

theorem exists_of_denotes_call (h : (call name es).Denotes R t) :
    ∃ ts, t = .compound name ts ∧ DenotesAll R es ts := by
  obtain ⟨as, bs, rfl, ha, hb⟩ := h
  exact ⟨bs, by rw [show as = [] from ha, List.nil_append], hb⟩

theorem denotes_curly (h : e.Denotes R t) : (curly e).Denotes R (.compound "{}" [t]) :=
  denotes_call (denotesAll_one h)

theorem denotes_cons {e' : Expr} (h : e.Denotes R t) (h' : e'.Denotes R u) :
    (cons e e').Denotes R (.compound "." [t, u]) :=
  denotes_call ⟨t, [u], rfl, h, denotesAll_one h'⟩

mutual

theorem Denotes.mono (hRS : ∀ x i, R x i → S x i) : ∀ {e : Expr} {t : Tree}, e.Denotes R t →
    e.Denotes S t
  | .var x, _, h => by
    obtain ⟨i, rfl, hi⟩ := h
    exact ⟨i, rfl, hRS x i hi⟩
  | .int _, _, h => h
  | .atom _, _, h => h
  | .compound _ _ _, _, h => by
    obtain ⟨as, bs, rfl, ha, hb⟩ := h
    exact ⟨as, bs, rfl, ha.mono hRS, hb.mono hRS⟩

theorem DenotesAll.mono (hRS : ∀ x i, R x i → S x i) : ∀ {es : List Expr} {ts : List Tree},
    DenotesAll R es ts → DenotesAll S es ts
  | [], _, h => h
  | _ :: _, _, h => by
    obtain ⟨u, us, rfl, hu, hus⟩ := h
    exact ⟨u, us, rfl, hu.mono hRS, hus.mono hRS⟩

end

mutual

/-- Trees that are meant by the same expression have as many leaves as it. -/
theorem Denotes.leaves_eq : ∀ {e : Expr} {t : Tree}, e.Denotes R t → e.leaves = t.leaves
  | .var _, _, h => by
    obtain ⟨i, rfl, -⟩ := h
    rfl
  | .int _, _, h => by
    rw [show _ = Tree.int _ from h]
    rfl
  | .atom _, _, h => by
    rw [show _ = Tree.atom _ from h]
    rfl
  | .compound before name behind, _, h => by
    obtain ⟨as, bs, rfl, ha, hb⟩ := h
    rw [leaves, ha.leaves_eq, hb.leaves_eq, Tree.leaves_compound, List.map_append, List.sum_append]

theorem DenotesAll.leaves_eq : ∀ {es : List Expr} {ts : List Tree}, DenotesAll R es ts →
    leavesAll es = (ts.map Tree.leaves).sum
  | [], _, h => by
    rw [show _ = [] from h]
    rfl
  | e :: es, _, h => by
    obtain ⟨u, us, rfl, hu, hus⟩ := h
    rw [leavesAll, hu.leaves_eq, hus.leaves_eq, List.map_cons, List.sum_cons]

end

variable {ρ : Address → Address}

mutual

/-- Two trees that are meant by the same expression are the same up to the variables. -/
theorem Denotes.eq_subst (hρ : ∀ x i j, R x i → S x j → j = ρ i) : ∀ {e : Expr} {t u : Tree},
    e.Denotes R t → e.Denotes S u → (u = t.subst fun i => .var (ρ i)) ∧
      ∀ i ∈ t.vars, ∃ x, R x i ∧ S x (ρ i)
  | .var x, _, _, h, h' => by
    obtain ⟨i, rfl, hi⟩ := h
    obtain ⟨j, rfl, hj⟩ := h'
    obtain rfl := hρ x i j hi hj
    refine ⟨rfl, fun k hk => ?_⟩
    rw [List.mem_singleton.1 hk]
    exact ⟨x, hi, hj⟩
  | .int _, _, _, h, h' => by
    rw [show _ = Tree.int _ from h, show _ = Tree.int _ from h']
    exact ⟨rfl, by simp [Tree.vars]⟩
  | .atom _, _, _, h, h' => by
    rw [show _ = Tree.atom _ from h, show _ = Tree.atom _ from h']
    exact ⟨rfl, by simp [Tree.vars]⟩
  | .compound before name behind, _, _, h, h' => by
    obtain ⟨as, bs, rfl, ha, hb⟩ := h
    obtain ⟨as', bs', rfl, ha', hb'⟩ := h'
    obtain ⟨h₁, h₂⟩ := DenotesAll.eq_map_subst hρ ha ha'
    obtain ⟨h₃, h₄⟩ := DenotesAll.eq_map_subst hρ hb hb'
    rw [Tree.subst_compound, List.map_append, h₁, h₃]
    refine ⟨rfl, fun i hi => ?_⟩
    rw [Tree.vars_compound, List.flatMap_append] at hi
    rcases List.mem_append.1 hi with hi | hi
    · exact h₂ i hi
    · exact h₄ i hi

theorem DenotesAll.eq_map_subst (hρ : ∀ x i j, R x i → S x j → j = ρ i) :
    ∀ {es : List Expr} {ts us : List Tree}, DenotesAll R es ts → DenotesAll S es us →
      us = ts.map (Tree.subst fun i => .var (ρ i)) ∧
      ∀ i ∈ ts.flatMap Tree.vars, ∃ x, R x i ∧ S x (ρ i)
  | [], _, _, h, h' => by
    rw [show _ = [] from h, show _ = [] from h']
    exact ⟨rfl, by simp⟩
  | e :: es, _, _, h, h' => by
    obtain ⟨t, ts, rfl, ht, hts⟩ := h
    obtain ⟨u, us, rfl, hu, hus⟩ := h'
    obtain ⟨h₁, h₂⟩ := Denotes.eq_subst hρ ht hu
    obtain ⟨h₃, h₄⟩ := DenotesAll.eq_map_subst hρ hts hus
    rw [List.map_cons, ← h₁, ← h₃]
    refine ⟨rfl, fun i hi => ?_⟩
    rw [List.flatMap_cons] at hi
    rcases List.mem_append.1 hi with hi | hi
    · exact h₂ i hi
    · exact h₄ i hi

end

end Expr

end PrologTerms
