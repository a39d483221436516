import PrologTerms.Proofs.Reading.Meaning
import PrologTerms.Proofs.Writing.Naming
import PrologTerms.Proofs.Writing.Term

/-!
# Variables in written terms

The variables among the pieces of a written term are those of the term. How a term is written does not
depend on which variables these are: a renaming of the variables renames the pieces. If the new
variables are known by the names that the old ones were given, then the text is the same.
-/

namespace PrologTerms

namespace Tree

variable {ops : OpTable} {k : List Piece} {name : String} {vs : List Address}

theorem vars_lead (p : Place) : (p.lead k).filterMap Piece.var? = k.filterMap Piece.var? := by
  unfold Place.lead
  split <;> rfl

theorem vars_bracketed {needed : Bool} {inner : List Piece → List Piece}
    (h : ∀ k, (inner k).filterMap Piece.var? = vs ++ k.filterMap Piece.var?) :
    (bracketed needed inner k).filterMap Piece.var? = vs ++ k.filterMap Piece.var? := by
  cases needed with
  | true => exact h (.punct ')' :: k)
  | false => exact h k

theorem vars_betweenOperands :
    (betweenOperands name k).filterMap Piece.var? = k.filterMap Piece.var? := by
  unfold betweenOperands
  split <;> rfl

theorem vars_writeArgs {args : List Tree} (h : ∀ t ∈ args, ∀ p k,
      (t.write ops p k).filterMap Piece.var? = t.vars ++ k.filterMap Piece.var?) :
    (writeArgs ops args k).filterMap Piece.var? =
      args.flatMap vars ++ k.filterMap Piece.var? := by
  induction args with
  | nil => rfl
  | cons t args ih =>
    have ht := h t List.mem_cons_self
    have ih := ih fun u hu => h u (List.mem_cons_of_mem t hu)
    rw [List.flatMap_cons, List.append_assoc, ← ih]
    cases args with
    | nil => exact ht .argument k
    | cons u args => exact ht .argument _

/-- The variables among the pieces of a term are those of the term, in their order. -/
theorem vars_write (t : Tree) (p : Place) (k : List Piece) :
    (t.write ops p k).filterMap Piece.var? = t.vars ++ k.filterMap Piece.var? := by
  induction t using Tree.induction generalizing p k with
  | var i =>
    rw [write, vars_lead]
    rfl
  | int n => exact vars_lead p
  | big n => exact vars_lead p
  | global n => exact vars_lead p
  | atom name =>
    rw [write]
    split
    · rfl
    · exact (vars_lead p).trans (vars_bracketed fun k => rfl)
  | compound name args ih =>
    rw [vars_compound]
    rcases args with _ | ⟨a, _ | ⟨b, _ | ⟨c, args⟩⟩⟩
    · exact vars_lead p
    · have ha := ih a List.mem_cons_self
      rw [List.flatMap_singleton, write]
      split
      · exact (vars_lead p).trans (ha _ _)
      · split
        · exact (vars_lead p).trans (vars_bracketed fun k => ha _ k)
        · exact (vars_lead p).trans (vars_bracketed fun k => ha _ _)
        · exact (vars_lead p).trans (ha _ _)
    · have ha := ih a List.mem_cons_self
      have hb := ih b (List.mem_cons_of_mem a List.mem_cons_self)
      have hvars : [a, b].flatMap vars ++ k.filterMap Piece.var? =
          a.vars ++ (b.vars ++ k.filterMap Piece.var?) := by simp
      rw [hvars, write]
      split
      · split
        · rw [← hb .tail]
          exact ha _ _
        · have hb := hb .tail (.punct ']' :: k)
          exact (ha _ _).trans (congrArg (a.vars ++ ·) hb)
      · split
        · rw [vars_lead, ← List.append_assoc]
          refine vars_bracketed fun k => ?_
          rw [ha, vars_betweenOperands, hb, List.append_assoc]
        · have hb := hb .argument (.punct ')' :: k)
          exact (vars_lead p).trans ((ha _ _).trans (congrArg (a.vars ++ ·) hb))
    · rw [write]
      · exact (vars_lead p).trans (vars_writeArgs (k := .punct ')' :: k) ih)
      · simp
      · simp

theorem vars_pieces (ops : OpTable) (t : Tree) :
    (t.pieces ops).filterMap Piece.var? = t.vars :=
  (vars_write t .whole []).trans (List.append_nil t.vars)

theorem mem_vars_of_mem_pieces {t : Tree} {i : Address} (h : .var i ∈ t.pieces ops) : i ∈ t.vars := by
  rw [← vars_pieces ops]
  exact List.mem_filterMap.2 ⟨_, h, rfl⟩

end Tree

/-! ## Other variables -/

/-- The piece with its variable renamed. -/
def Piece.rename (ρ : Address → Address) : Piece → Piece
  | .var i => .var (ρ i)
  | p => p

namespace Tree

variable {ops : OpTable} {ρ : Address → Address} {k : List Piece}

/-- The tree with its variables renamed. -/
def rename (ρ : Address → Address) (t : Tree) : Tree := t.subst fun i => .var (ρ i)

theorem rename_compound (name : String) (args : List Tree) :
    (compound name args).rename ρ = .compound name (args.map (rename ρ)) :=
  subst_compound _ name args

theorem rename_rename (ρ τ : Address → Address) (t : Tree) :
    (t.rename ρ).rename τ = t.rename (τ ∘ ρ) := by
  induction t using Tree.induction with
  | compound name args ih =>
    rw [rename_compound, rename_compound, rename_compound, List.map_map]
    exact congrArg (compound name) (List.map_congr_left ih)
  | _ => rfl

theorem rename_congr {σ : Address → Address} {t : Tree} (h : ∀ i ∈ t.vars, ρ i = σ i) :
    t.rename ρ = t.rename σ := by
  induction t using Tree.induction with
  | var i => exact congrArg var (h i List.mem_cons_self)
  | compound name args ih =>
    rw [rename_compound, rename_compound]
    refine congrArg (compound name) (List.map_congr_left fun t ht => ih t ht fun i hi => h i ?_)
    rw [vars_compound]
    exact List.mem_flatMap.2 ⟨t, ht, hi⟩
  | _ => rfl

theorem Writable.rename {t : Tree} (ht : t.Writable) (ρ : Address → Address) :
    (t.rename ρ).Writable := by
  induction t using Tree.induction with
  | compound name args ih =>
    obtain ⟨hne, hargs⟩ := everywhere_compound.1 ht
    rw [rename_compound]
    refine everywhere_compound.2 ⟨fun h => hne (List.map_eq_nil_iff.1 h), fun u hu => ?_⟩
    obtain ⟨a, ha, rfl⟩ := List.mem_map.1 hu
    exact ih a ha (hargs a ha)
  | _ => exact ht

theorem map_lead (p : Place) : (p.lead k).map (.rename ρ) = p.lead (k.map (.rename ρ)) := by
  unfold Place.lead
  split <;> rfl

theorem map_bracketed {inner inner' : List Piece → List Piece} (needed : Bool)
    (h : ∀ k, (inner k).map (.rename ρ) = inner' (k.map (.rename ρ))) :
    (bracketed needed inner k).map (.rename ρ) = bracketed needed inner' (k.map (.rename ρ)) := by
  cases needed with
  | true => exact congrArg (Piece.punct '(' :: ·) (h _)
  | false => exact h k

theorem map_betweenOperands (name : String) :
    (betweenOperands name k).map (.rename ρ) = betweenOperands name (k.map (.rename ρ)) := by
  unfold betweenOperands
  split <;> rfl

theorem map_writeArgs {args : List Tree}
    (h : ∀ t ∈ args, ∀ p k, (t.write ops p k).map (.rename ρ) =
      (t.rename ρ).write ops p (k.map (.rename ρ))) :
    (writeArgs ops args k).map (.rename ρ) =
      writeArgs ops (args.map (rename ρ)) (k.map (.rename ρ)) := by
  induction args with
  | nil => rfl
  | cons t args ih =>
    have ht := h t List.mem_cons_self
    have ih := ih fun u hu => h u (List.mem_cons_of_mem t hu)
    cases args with
    | nil => exact ht .argument k
    | cons u args =>
      simp only [List.map_cons, writeArgs] at ih ⊢
      rw [ht .argument, ← ih]
      rfl

/-- The pieces of a term with its variables renamed are those of the term, renamed. -/
theorem map_write (ρ : Address → Address) (t : Tree) (p : Place) (k : List Piece) :
    (t.write ops p k).map (.rename ρ) = (t.rename ρ).write ops p (k.map (.rename ρ)) := by
  induction t using Tree.induction generalizing p k with
  | var i => exact map_lead p
  | int n => exact map_lead p
  | big n => exact map_lead p
  | global n => exact map_lead p
  | atom name =>
    show _ = (atom name).write ops p _
    simp only [write]
    split
    · rfl
    · rw [map_lead]
      exact congrArg p.lead (map_bracketed _ fun k => rfl)
  | compound name args ih =>
    rw [rename_compound]
    rcases args with _ | ⟨a, _ | ⟨b, _ | ⟨c, args⟩⟩⟩
    · exact map_lead p
    · have ha := ih a List.mem_cons_self
      simp only [List.map_cons, List.map_nil, write]
      split
      · rw [map_lead, List.map_cons, ha]
        rfl
      · split
        · rw [map_lead, map_bracketed _ fun k => ?_]
          rw [List.map_cons, List.map_cons, ha]
          rfl
        · rw [map_lead, map_bracketed _ fun k => ?_]
          exact ha _ _
        · rw [map_lead, List.map_cons, List.map_cons, ha]
          rfl
    · have ha := ih a List.mem_cons_self
      have hb := ih b (List.mem_cons_of_mem a List.mem_cons_self)
      simp only [List.map_cons, List.map_nil, write]
      split
      · split
        · rw [← hb, ← ha]
          rfl
        · rw [List.map_cons, ha, hb]
          rfl
      · split
        · rw [map_lead, map_bracketed _ fun k => ?_]
          rw [ha, map_betweenOperands, hb]
        · rw [map_lead, List.map_cons, List.map_cons, ha]
          show _ = p.lead (.functor name :: .punct '(' :: (a.rename ρ).write ops .argument (comma
            ((b.rename ρ).write ops .argument ((Piece.punct ')' :: k).map (.rename ρ)))))
          rw [← hb]
          rfl
    · have hargs := map_writeArgs (k := .punct ')' :: k) ih
      simp only [List.map_cons, write] at hargs ⊢
      rw [map_lead, List.map_cons, List.map_cons, hargs]
      rfl

theorem pieces_rename (ρ : Address → Address) (t : Tree) :
    (t.rename ρ).pieces ops = (t.pieces ops).map (.rename ρ) :=
  (map_write ρ t .whole []).symm

end Tree

/-- Pieces whose variables are renamed have the same text if the names go with them. -/
theorem textAll_rename {ρ : Address → Address} {naming naming' : Address → String} {ps : List Piece}
    (h : ∀ i, .var i ∈ ps → naming' (ρ i) = naming i) :
    Piece.textAll naming' (ps.map (.rename ρ)) = Piece.textAll naming ps := by
  rw [Piece.textAll, Piece.textAll, List.flatMap_map]
  refine List.flatMap_congr fun p hp => ?_
  cases p with
  | var i => exact congrArg String.toList (h i hp)
  | _ => rfl

namespace Naming

variable {source : SourceNames} {ν : Address → String}

/-- A name that has not been given is given as it is. -/
theorem avoid_of_not_mem {taken : List String} {name : String} (h : name ∉ taken) :
    avoid taken name = name := by
  unfold avoid
  cases taken with
  | nil => rfl
  | cons s taken => rw [List.length_cons, avoidWithin, if_neg h]

/-- The names in `source` are given to new variables, if they are different from each other. -/
theorem addAll_of_known {is : List Address}
    (hsource : ∀ i ∈ is, source.lookup i = some (ν i))
    (hν : ∀ i ∈ is, ∀ j ∈ is, ν i = ν j → i = j) {js : List Address} {given : Naming}
    (hjs : ∀ j ∈ js, j ∈ is) (hgiven : ∀ q ∈ given, ∃ i ∈ is, q = (i, ν i)) :
    ∀ q ∈ addAll source given js, ∃ i ∈ is, q = (i, ν i) := by
  induction js generalizing given with
  | nil => exact hgiven
  | cons j js ih =>
    refine ih (fun i hi => hjs i (List.mem_cons_of_mem j hi)) fun q hq => ?_
    have hj := hjs j List.mem_cons_self
    unfold add at hq
    split at hq
    · exact hgiven q hq
    · next hnone =>
      rcases List.mem_cons.1 hq with rfl | hq
      · have hnew : ν j ∉ given.map Prod.snd := by
          intro hmem
          obtain ⟨p, hp, hpj⟩ := List.mem_map.1 hmem
          obtain ⟨i, hi, rfl⟩ := hgiven p hp
          obtain rfl := hν i hi j hj hpj
          have hne := List.lookup_eq_none_iff.1 hnone _ hp
          simp at hne
        refine ⟨j, hj, ?_⟩
        rw [nameFor, hsource j hj]
        exact congrArg (Prod.mk j) (avoid_of_not_mem hnew)
      · exact hgiven q hq

/-- Variables that are known by different names are given these names. -/
theorem get_addAll_of_known {is : List Address}
    (hsource : ∀ i ∈ is, source.lookup i = some (ν i))
    (hν : ∀ i ∈ is, ∀ j ∈ is, ν i = ν j → i = j) {i : Address} (hi : i ∈ is) :
    (addAll source [] is).get i = ν i := by
  obtain ⟨name, hname⟩ := exists_lookup_addAll source [] hi
  have hnil : ∀ q ∈ ([] : Naming), ∃ i ∈ is, q = (i, ν i) := by simp
  obtain ⟨j, -, e⟩ := addAll_of_known hsource hν (fun _ h => h) hnil _ (mem_of_lookup hname)
  rw [Prod.mk.injEq] at e
  obtain ⟨rfl, rfl⟩ := e
  rw [get, hname, Option.getD_some]

end Naming

namespace Tree

variable {ops : OpTable} {source source' : SourceNames} {ρ : Address → Address} {t : Tree}

/-- The name that is given to a variable where the term is written. -/
def givenName (ops : OpTable) (source : SourceNames) (t : Tree) : Address → String :=
  Naming.get (t.writeNaming ops source []).2

theorem givenName_eq : t.givenName ops source = Naming.get (.addAll source [] t.vars) := by
  rw [givenName, writeNaming, vars_pieces]

/-- The names given to the variables of a written term tell them apart. -/
theorem names_givenName (hs : source.WellFormed) (ops : OpTable) (t : Tree) :
    (∀ i, t.givenName ops source i ≠ "_") ∧ Naming.Names (t.givenName ops source) t.vars := by
  have hempty : Naming.WellFormed [] := ⟨by simp [SourceNames.WellFormed], .nil⟩
  have hwf := hempty.addAll hs t.vars
  rw [givenName_eq]
  exact ⟨hwf.get_ne_underline, hwf.names_get fun i hi => Naming.exists_lookup_addAll source [] hi⟩

theorem vars_rename (ρ : Address → Address) (t : Tree) : (t.rename ρ).vars = t.vars.map ρ := by
  rw [← vars_pieces .standard, pieces_rename, ← vars_pieces .standard t, List.filterMap_map,
    List.map_filterMap]
  refine List.filterMap_congr fun p _ => ?_
  cases p <;> rfl

/-- Terms that are the same up to one-to-one renamings of variables are variants. -/
theorem variant_of_rename_eq {u : Tree} {σ : Address → Address}
    (hρ : ∀ i ∈ t.vars, ∀ j ∈ t.vars, ρ i = ρ j → i = j)
    (hσ : ∀ i ∈ u.vars, ∀ j ∈ u.vars, σ i = σ j → i = j) (h : t.rename ρ = u.rename σ) :
    t.Variant u := by
  have hinj : Set.InjOn σ {i | i ∈ u.vars} := fun i hi j hj => hσ i hi j hj
  let τ := Function.invFunOn σ {i | i ∈ u.vars}
  have hτ : ∀ j ∈ u.vars, τ (σ j) = j := fun j hj => hinj.leftInvOn_invFunOn hj
  have hvars : ∀ i ∈ t.vars, ∃ j ∈ u.vars, σ j = ρ i := by
    intro i hi
    have hmem : ρ i ∈ (u.rename σ).vars := by
      rw [← h, vars_rename]
      exact List.mem_map_of_mem hi
    rw [vars_rename] at hmem
    exact List.mem_map.1 hmem
  refine ⟨τ ∘ ρ, fun i hi j hj e => ?_, ?_⟩
  · obtain ⟨i', hi', hρi⟩ := hvars i hi
    obtain ⟨j', hj', hρj⟩ := hvars j hj
    have e : τ (ρ i) = τ (ρ j) := e
    rw [← hρi, ← hρj, hτ i' hi', hτ j' hj'] at e
    subst e
    exact hρ i hi j hj (hρi.symm.trans hρj)
  · show u = t.rename (τ ∘ ρ)
    have hself : u.rename (τ ∘ σ) = u.rename id := rename_congr hτ
    rw [← rename_rename, h, rename_rename, hself]
    exact (subst_var u).symm

/-- A term with other variables has the same text, if these are known by the names that the old ones
were given. -/
theorem text_rename (hs : source.WellFormed)
    (hρ : ∀ i ∈ t.vars, source'.lookup (ρ i) = some (t.givenName ops source i)) :
    (t.rename ρ).text ops source' = t.text ops source := by
  have hinj := (names_givenName hs ops t).2.inj
  let ν : Address → String := fun j => (source'.lookup j).getD ""
  have hν : ∀ i ∈ t.vars, ν (ρ i) = t.givenName ops source i := fun i hi => by simp [ν, hρ i hi]
  have hknown : ∀ j ∈ t.vars.map ρ, source'.lookup j = some (ν j) := by
    intro j hj
    obtain ⟨i, hi, rfl⟩ := List.mem_map.1 hj
    rw [hρ i hi, hν i hi]
  have hνinj : ∀ j ∈ t.vars.map ρ, ∀ j' ∈ t.vars.map ρ, ν j = ν j' → j = j' := by
    intro j hj j' hj' e
    obtain ⟨i, hi, rfl⟩ := List.mem_map.1 hj
    obtain ⟨i', hi', rfl⟩ := List.mem_map.1 hj'
    rw [hν i hi, hν i' hi'] at e
    rw [hinj i hi i' hi' e]
  show String.ofList (Piece.textAll ((t.rename ρ).givenName ops source') ((t.rename ρ).pieces ops)) =
    String.ofList (Piece.textAll (t.givenName ops source) (t.pieces ops))
  rw [pieces_rename, textAll_rename fun i hi => ?_]
  have hi := mem_vars_of_mem_pieces hi
  rw [givenName_eq, vars_rename, Naming.get_addAll_of_known hknown hνinj (List.mem_map_of_mem hi),
    hν i hi]

end Tree

end PrologTerms
