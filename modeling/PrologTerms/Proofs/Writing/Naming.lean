import PrologTerms.Proofs.Reading.Draft
import PrologTerms.Proofs.Token.Digits
import PrologTerms.Writing.Naming

/-!
# The names of written variables

Every written variable has a name that is read as a variable of its own: no two variables have the
same name, and none has the name `_`, which is never read as the same variable twice.
-/

namespace PrologTerms

/-! ## Appending underlines -/

/-- A name that stays one when an underline is appended, as all names of variables do. -/
theorem IsVarName.append_underline {name : String} (h : IsVarName name) :
    IsVarName (name ++ "_") ∧ name ++ "_" ≠ "_" := by
  obtain ⟨c, cs, e, hc, hcs⟩ := h
  have el : (name ++ "_").toList = c :: (cs ++ ['_']) := by simp [e]
  refine ⟨⟨c, cs ++ ['_'], el, hc, fun d hd => ?_⟩, fun h => ?_⟩
  · rcases List.mem_append.1 hd with hd | hd
    · exact hcs d hd
    · rw [List.mem_singleton.1 hd]
      rfl
  · rw [h] at el
    cases cs <;> simp at el

/-- The names in a list that are not shorter than the given one. -/
def longer (taken : List String) (name : String) : Nat :=
  taken.countP fun s => name.length ≤ s.length

theorem longer_append_lt {taken : List String} {name : String} (h : name ∈ taken) :
    longer taken (name ++ "_") < longer taken name := by
  have hlen : (name ++ "_").length = name.length + 1 := by
    rw [String.length_append]
    rfl
  unfold longer
  rw [hlen]
  obtain ⟨front, back, rfl⟩ := List.append_of_mem h
  have hmono : ∀ l : List String, l.countP (fun s => decide (name.length + 1 ≤ s.length)) ≤
      l.countP fun s => decide (name.length ≤ s.length) := by
    intro l
    refine List.countP_mono_left fun s _ hs => ?_
    rw [decide_eq_true_eq] at hs ⊢
    omega
  have hfront := hmono front
  have hback := hmono back
  rw [List.countP_append, List.countP_append, List.countP_cons_of_neg (by simp),
    List.countP_cons_of_pos (by simp)]
  omega

/-- As many underlines as there are names to avoid are enough. -/
theorem avoidWithin_not_mem {taken : List String} {n : Nat} {name : String}
    (h : longer taken name ≤ n) : avoidWithin taken n name ∉ taken := by
  induction n generalizing name with
  | zero =>
    intro hm
    have := longer_append_lt hm
    rw [avoidWithin] at this
    omega
  | succ n ih =>
    rw [avoidWithin]
    split
    · next hm =>
      have := longer_append_lt hm
      exact ih (by omega)
    · next hm => exact hm

theorem avoid_not_mem (taken : List String) (name : String) : avoid taken name ∉ taken :=
  avoidWithin_not_mem List.countP_le_length

theorem isVarName_avoidWithin (taken : List String) (n : Nat) {name : String} (h : IsVarName name)
    (hne : name ≠ "_") : IsVarName (avoidWithin taken n name) ∧ avoidWithin taken n name ≠ "_" := by
  induction n generalizing name with
  | zero => exact ⟨h, hne⟩
  | succ n ih =>
    rw [avoidWithin]
    split
    · exact ih h.append_underline.1 h.append_underline.2
    · exact ⟨h, hne⟩

theorem toList_addressName (i : Address) :
    (addressName i).toList = '_' :: 'G' :: Nat.toDigits 10 i := by simp [addressName]

theorem isVarName_addressName (i : Address) : IsVarName (addressName i) ∧ addressName i ≠ "_" := by
  refine ⟨⟨'_', _, toList_addressName i, .inr rfl, fun d hd => ?_⟩, fun h => ?_⟩
  · rcases List.mem_cons.1 hd with rfl | hd
    · rfl
    · exact isAlpha_of_isDigit (isDigit_of_mem_toDigits hd)
  · have hlist := toList_addressName i
    rw [h] at hlist
    simp at hlist

/-! ## Giving names -/

namespace Naming

variable {source : SourceNames} {given : Naming} {i j : Address} {name : String}

theorem mem_of_lookup (h : given.lookup i = some name) : (i, name) ∈ given := by
  obtain ⟨l₁, l₂, rfl, -⟩ := List.lookup_eq_some_iff.1 h
  exact List.mem_append_right l₁ List.mem_cons_self

/-- The names given are names of variables and different from each other. -/
structure WellFormed (given : Naming) : Prop where
  /-- They are names of variables. -/
  names : SourceNames.WellFormed given
  /-- No name is given twice. -/
  nodup : (given.map Prod.snd).Nodup

theorem isVarName_nameFor (hs : source.WellFormed) (given : Naming) (i : Address) :
    IsVarName (nameFor source given i) ∧ nameFor source given i ≠ "_" := by
  have hwanted : ∀ name, source.lookup i = some name → IsVarName name ∧ name ≠ "_" := by
    intro name h
    exact hs _ (mem_of_lookup h)
  unfold nameFor
  cases h : source.lookup i with
  | some name =>
    obtain ⟨h₁, h₂⟩ := hwanted name h
    exact isVarName_avoidWithin _ _ h₁ h₂
  | none =>
    obtain ⟨h₁, h₂⟩ := isVarName_addressName i
    obtain ⟨h₃, h₄⟩ := isVarName_avoidWithin (source.map Prod.snd)
      (source.map Prod.snd).length h₁ h₂
    exact isVarName_avoidWithin _ _ h₃ h₄

theorem WellFormed.add (hs : source.WellFormed) (hg : given.WellFormed) (i : Address) :
    (add source given i).WellFormed := by
  unfold Naming.add
  split
  · exact hg
  · refine ⟨fun p hp => ?_, ?_⟩
    · rcases List.mem_cons.1 hp with rfl | hp
      · exact isVarName_nameFor hs given i
      · exact hg.names p hp
    · rw [List.map_cons, List.nodup_cons]
      exact ⟨avoid_not_mem _ _, hg.nodup⟩

/-- A name once given stays. -/
theorem lookup_add (h : given.lookup j = some name) (i : Address) :
    (add source given i).lookup j = some name := by
  unfold Naming.add
  split
  · exact h
  · next hi =>
    have hne : (j == i) = false := by
      rw [beq_eq_false_iff_ne]
      rintro rfl
      rw [hi] at h
      cases h
    rw [List.lookup_cons, hne]
    exact h

theorem exists_lookup_add (source : SourceNames) (given : Naming) (i : Address) :
    ∃ name, (add source given i).lookup i = some name := by
  unfold Naming.add
  split
  · next name h => exact ⟨name, h⟩
  · exact ⟨_, List.lookup_cons_self⟩

theorem WellFormed.addAll (hs : source.WellFormed) (hg : given.WellFormed) (is : List Address) :
    (addAll source given is).WellFormed := by
  induction is generalizing given with
  | nil => exact hg
  | cons i is ih => exact ih (hg.add hs i)

theorem lookup_addAll (h : given.lookup j = some name) (is : List Address) :
    (addAll source given is).lookup j = some name := by
  induction is generalizing given with
  | nil => exact h
  | cons i is ih => exact ih (lookup_add h i)

/-- All variables are given names. -/
theorem exists_lookup_addAll (source : SourceNames) (given : Naming) {is : List Address}
    (h : i ∈ is) : ∃ name, (addAll source given is).lookup i = some name := by
  induction is generalizing given with
  | nil => cases h
  | cons j is ih =>
    rcases List.mem_cons.1 h with rfl | h
    · obtain ⟨name, hname⟩ := exists_lookup_add source given i
      exact ⟨name, lookup_addAll hname is⟩
    · exact ih (add source given j) h

/-- The names tell the variables apart, and are names of variables. -/
structure Names (naming : Address → String) (is : List Address) : Prop where
  /-- They are names of variables. -/
  isVarName : ∀ i ∈ is, IsVarName (naming i)
  /-- No two of the variables have the same name. -/
  inj : ∀ i ∈ is, ∀ j ∈ is, naming i = naming j → i = j

theorem WellFormed.get_ne_underline (hg : given.WellFormed) (i : Address) : given.get i ≠ "_" := by
  rw [get]
  cases h : given.lookup i with
  | none => decide
  | some name => exact (hg.names _ (mem_of_lookup h)).2

theorem WellFormed.names_get (hg : given.WellFormed) {is : List Address}
    (h : ∀ i ∈ is, ∃ name, given.lookup i = some name) : Names given.get is := by
  have hmem : ∀ i ∈ is, (i, given.get i) ∈ given := by
    intro i hi
    obtain ⟨name, hn⟩ := h i hi
    rw [get, hn, Option.getD_some]
    exact mem_of_lookup hn
  refine ⟨fun i hi => (hg.names _ (hmem i hi)).1, ?_⟩
  intro i hi j hj e
  have := List.inj_on_of_nodup_map hg.nodup (hmem i hi) (hmem j hj) e
  exact congrArg Prod.fst this

end Naming

end PrologTerms
