import PrologTerms.Proofs.Writing.Variables

/-!
# Several terms written one after the other

A variable is written under the same name wherever it occurs, also in different terms: the name that it
has been given when all is written.
-/

namespace PrologTerms

/-- The text of pieces depends on the names of the variables in them only. -/
theorem textAll_congr {naming naming' : Address → String} {ps : List Piece}
    (h : ∀ i, .var i ∈ ps → naming i = naming' i) : Piece.textAll naming ps = Piece.textAll naming' ps := by
  refine List.flatMap_congr fun p hp => ?_
  cases p with
  | var i => exact congrArg String.toList (h i hp)
  | _ => rfl

namespace Tree

variable {ops : OpTable} {source : SourceNames} {given : Naming} {i : Address} {name : String} {t : Tree}
  {ts : List Tree}

/-- The names given to variables by the time that the terms have been written. -/
def namesAfter (ops : OpTable) (source : SourceNames) (given : Naming) (ts : List Tree) : Naming :=
  ts.foldl (fun given t => (t.writeNaming ops source given).2) given

theorem namesAfter_cons : namesAfter ops source given (t :: ts) =
    namesAfter ops source (t.writeNaming ops source given).2 ts := rfl

/-- The variables are named in the order in which they are written. -/
theorem namesAfter_eq : namesAfter ops source given ts = given.addAll source (ts.flatMap vars) := by
  induction ts generalizing given with
  | nil => rfl
  | cons t ts ih =>
    rw [namesAfter_cons, ih, writeNaming, vars_pieces, List.flatMap_cons]
    exact List.foldl_append.symm

theorem lookup_namesAfter (h : given.lookup i = some name) (ts : List Tree) :
    (namesAfter ops source given ts).lookup i = some name := by
  rw [namesAfter_eq]
  exact Naming.lookup_addAll h _

/-- All terms are written with the names that are given in the end. -/
theorem texts_eq : texts ops source given ts = ts.map fun t =>
    String.ofList (Piece.textAll (namesAfter ops source given ts).get (t.pieces ops)) := by
  induction ts generalizing given with
  | nil => rfl
  | cons t ts ih =>
    rw [texts, List.map_cons, namesAfter_cons, ← ih]
    refine congrArg (· :: _) (congrArg String.ofList (textAll_congr fun i hi => ?_))
    obtain ⟨name, hname⟩ := Naming.exists_lookup_addAll source given (mem_vars_of_mem_pieces hi)
    rw [← vars_pieces ops] at hname
    have hafter : (namesAfter ops source (t.writeNaming ops source given).2 ts).lookup i = some name :=
      lookup_namesAfter hname ts
    rw [Naming.get, Naming.get, hname, hafter]

/-- The names given to the variables of written terms tell them apart. -/
theorem names_namesAfter (hs : source.WellFormed) (ops : OpTable) (ts : List Tree) :
    (∀ i, (namesAfter ops source [] ts).get i ≠ "_") ∧
      Naming.Names (namesAfter ops source [] ts).get (ts.flatMap vars) := by
  have hempty : Naming.WellFormed [] := ⟨by simp [SourceNames.WellFormed], .nil⟩
  have hwf := hempty.addAll hs (ts.flatMap vars)
  rw [namesAfter_eq]
  exact ⟨hwf.get_ne_underline, hwf.names_get fun i hi => Naming.exists_lookup_addAll source [] hi⟩

end Tree

end PrologTerms
