import Mathlib.Data.List.Induction
import PrologTerms.Proofs.Writing.Naming
import PrologTerms.Proofs.Writing.Variables

/-!
# Where the underlines end

A name is followed by as few underlines as make it a new one. The names that two variables are given
can be the same, up to underlines, only where this holds of the names that are wanted for them, and no
name that is generated after an address differs from one after another address by underlines only.
-/

namespace PrologTerms

/-! ## Names with underlines -/

/-- A name with a number of underlines appended. -/
def underlined (name : String) (n : Nat) : String := name ++ String.ofList (List.replicate n '_')

variable {name s : String} {m n : Nat} {i j : Address} {taken : List String}

theorem toList_underlined (name : String) (n : Nat) :
    (underlined name n).toList = name.toList ++ List.replicate n '_' := by
  rw [underlined, String.toList_append, String.toList_ofList]

theorem underlined_zero (name : String) : underlined name 0 = name := by
  rw [← String.toList_inj, toList_underlined, List.replicate_zero, List.append_nil]

/-- Underlines are appended one by one. -/
theorem underlined_append (name : String) (n : Nat) :
    underlined (name ++ "_") n = underlined name (n + 1) := by
  rw [← String.toList_inj, toList_underlined, toList_underlined, List.replicate_succ, String.toList_append,
    List.append_assoc]
  rfl

theorem underlined_underlined (name : String) (m n : Nat) :
    underlined (underlined name m) n = underlined name (m + n) := by
  rw [← String.toList_inj, toList_underlined, toList_underlined, toList_underlined, List.append_assoc,
    List.replicate_append_replicate]

theorem underlined_inj : underlined name m = underlined name n ↔ m = n := by
  refine ⟨fun h => ?_, fun h => h ▸ rfl⟩
  have hlen := congrArg List.length (congrArg String.toList h)
  rw [toList_underlined, toList_underlined, List.length_append, List.length_append, List.length_replicate,
    List.length_replicate] at hlen
  omega

/-! ## Avoiding names -/

/-- All names with fewer underlines are avoided. -/
theorem avoidWithin_eq (taken : List String) (n : Nat) (name : String) :
    ∃ m, avoidWithin taken n name = underlined name m ∧ ∀ k < m, underlined name k ∈ taken := by
  induction n generalizing name with
  | zero => exact ⟨0, (underlined_zero name).symm, fun k hk => absurd hk (Nat.not_lt_zero k)⟩
  | succ n ih =>
    rw [avoidWithin]
    split
    · next hm =>
      obtain ⟨m, hm', hall⟩ := ih (name ++ "_")
      refine ⟨m + 1, hm'.trans (underlined_append name m), fun k hk => ?_⟩
      cases k with
      | zero => rwa [underlined_zero]
      | succ k =>
        rw [← underlined_append]
        exact hall k (Nat.lt_of_succ_lt_succ hk)
    · exact ⟨0, (underlined_zero name).symm, fun k hk => absurd hk (Nat.not_lt_zero k)⟩

/-- The name that avoids others is the first one that does. -/
theorem avoid_eq (taken : List String) (name : String) : ∃ m, avoid taken name = underlined name m ∧
    (∀ k < m, underlined name k ∈ taken) ∧ underlined name m ∉ taken := by
  obtain ⟨m, hm, hall⟩ := avoidWithin_eq taken taken.length name
  exact ⟨m, hm, hall, hm ▸ avoid_not_mem taken name⟩

theorem avoid_eq_of_first (h : ∀ k < m, underlined name k ∈ taken) (hm : underlined name m ∉ taken) :
    avoid taken name = underlined name m := by
  obtain ⟨n, hn, hall, hnot⟩ := avoid_eq taken name
  rcases Nat.lt_trichotomy m n with hlt | rfl | hlt
  · exact absurd (hall m hlt) hm
  · exact hn
  · exact absurd (h n hlt) hnot

/-! ## Names after addresses -/

theorem addressName_injective : Function.Injective addressName := by
  intro i j h
  have hlist := congrArg String.toList h
  rw [toList_addressName, toList_addressName] at hlist
  have hdigits : Nat.toDigits 10 i = Nat.toDigits 10 j := (List.cons.inj (List.cons.inj hlist).2).2
  rw [← positional_toDigits i, hdigits, positional_toDigits]

/-- The name after an address ends in a digit. -/
theorem addressName_ne_underlined (i : Address) (s : String) (n : Nat) :
    addressName i ≠ underlined s (n + 1) := by
  intro h
  have hlist := congrArg String.toList h
  have hne : Nat.toDigits 10 i ≠ [] := Nat.toDigits_ne_nil
  have hlast : '_' ∈ (Nat.toDigits 10 i).getLast? := by
    have hlast := congrArg List.getLast? hlist
    rw [toList_addressName, toList_underlined, List.replicate_succ', ← List.append_assoc,
      List.getLast?_concat, List.getLast?_cons_cons] at hlast
    rw [List.getLast?_cons_of_ne_nil hne] at hlast
    exact hlast
  have hdigit := isDigit_of_mem_toDigits (List.mem_of_getLast? hlast)
  exact absurd hdigit (by decide)

/-- What becomes a name after an address through underlines is one. -/
theorem eq_underlined_addressName (h : underlined s n = underlined (addressName i) m) :
    ∃ k, k + n = m ∧ s = underlined (addressName i) k := by
  have hlist := congrArg String.toList h
  rw [toList_underlined, toList_underlined] at hlist
  rcases Nat.le_total n m with hle | hle
  · obtain ⟨k, rfl⟩ := Nat.exists_eq_add_of_le' hle
    refine ⟨k, rfl, ?_⟩
    rw [← List.replicate_append_replicate, ← List.append_assoc] at hlist
    rw [← String.toList_inj, toList_underlined]
    exact List.append_cancel_right hlist
  · obtain ⟨k, rfl⟩ := Nat.exists_eq_add_of_le' hle
    rw [← List.replicate_append_replicate, ← List.append_assoc] at hlist
    have hs : s.toList ++ List.replicate k '_' = (addressName i).toList := List.append_cancel_right hlist
    rw [← toList_underlined, String.toList_inj] at hs
    cases k with
    | zero =>
      rw [underlined_zero] at hs
      exact ⟨0, by omega, hs.trans (underlined_zero _).symm⟩
    | succ k => exact absurd hs.symm (addressName_ne_underlined i s k)

theorem eq_of_underlined_addressName (h : underlined (addressName j) n = underlined (addressName i) m) :
    j = i := by
  obtain ⟨k, -, hk⟩ := eq_underlined_addressName h
  cases k with
  | zero =>
    rw [underlined_zero] at hk
    exact addressName_injective hk
  | succ k => exact absurd hk (addressName_ne_underlined j _ k)

/-! ## The names given -/

namespace Naming

variable {source : SourceNames} {given : Naming} {is : List Address}

/-- The name that is wanted for a variable: its own one, or the first after its address that is no source
name. -/
def wanted (source : SourceNames) (i : Address) : String :=
  match source.lookup i with
  | some name => name
  | none => avoid (source.map Prod.snd) (addressName i)

theorem nameFor_eq (source : SourceNames) (given : Naming) (i : Address) :
    nameFor source given i = avoid (given.map Prod.snd) (wanted source i) := rfl

theorem wanted_of_lookup (h : source.lookup i = some name) : wanted source i = name := by
  rw [wanted, h]

theorem wanted_of_none (h : source.lookup i = none) :
    wanted source i = avoid (source.map Prod.snd) (addressName i) := by
  rw [wanted, h]

/-- No variable is named twice, no name is given twice, and every name is the wanted one with as few
underlines as the names that are given allow. -/
structure Probed (source : SourceNames) (given : Naming) : Prop where
  /-- No variable is named twice. -/
  nodup : (given.map Prod.fst).Nodup
  /-- No name is given twice. -/
  distinct : (given.map Prod.snd).Nodup
  /-- All names with fewer underlines are given, too. -/
  first : ∀ p ∈ given, ∃ n, p.2 = underlined (wanted source p.1) n ∧
    ∀ m < n, underlined (wanted source p.1) m ∈ given.map Prod.snd

theorem probed_nil (source : SourceNames) : Probed source [] :=
  ⟨List.nodup_nil, List.nodup_nil, fun _ hp => absurd hp List.not_mem_nil⟩

theorem Probed.add (hg : Probed source given) (i : Address) : Probed source (add source given i) := by
  unfold Naming.add
  split
  · exact hg
  · next hi =>
    refine ⟨?_, ?_, fun p hp => ?_⟩
    · rw [List.map_cons, List.nodup_cons]
      refine ⟨fun hm => ?_, hg.nodup⟩
      obtain ⟨p, hp, rfl⟩ := List.mem_map.1 hm
      simpa using List.lookup_eq_none_iff.1 hi p hp
    · rw [List.map_cons, List.nodup_cons]
      exact ⟨avoid_not_mem _ _, hg.distinct⟩
    · rw [List.map_cons]
      rcases List.mem_cons.1 hp with rfl | hp
      · obtain ⟨n, hn, hall, -⟩ := avoid_eq (given.map Prod.snd) (wanted source i)
        exact ⟨n, hn, fun m hm => List.mem_cons_of_mem _ (hall m hm)⟩
      · obtain ⟨n, hn, hall⟩ := hg.first p hp
        exact ⟨n, hn, fun m hm => List.mem_cons_of_mem _ (hall m hm)⟩

theorem Probed.addAll (hg : Probed source given) (is : List Address) :
    Probed source (addAll source given is) := by
  induction is generalizing given with
  | nil => exact hg
  | cons i is ih => exact ih (hg.add i)

theorem addAll_append (source : SourceNames) (given : Naming) (is js : List Address) :
    addAll source given (is ++ js) = addAll source (addAll source given is) js := List.foldl_append

/-- Only what has been written is named. -/
theorem mem_of_mem_addAll {p : Address × String} (h : p ∈ addAll source given is) :
    p ∈ given ∨ p.1 ∈ is := by
  induction is generalizing given with
  | nil => exact .inl h
  | cons i is ih =>
    rcases ih h with hp | hp
    · unfold Naming.add at hp
      split at hp
      · exact .inl hp
      · rcases List.mem_cons.1 hp with rfl | hp
        · exact .inr List.mem_cons_self
        · exact .inl hp
    · exact .inr (List.mem_cons_of_mem _ hp)

/-- What has not been named gets a name in front of the others. -/
theorem addAll_concat (h : ∀ p ∈ addAll source given is, p.1 ≠ i) :
    addAll source given (is ++ [i]) =
      (i, nameFor source (addAll source given is) i) :: addAll source given is := by
  have hnone : (addAll source given is).lookup i = none := by
    rw [List.lookup_eq_none_iff]
    intro p hp
    simpa using (h p hp).symm
  rw [addAll_append]
  show Naming.add source (addAll source given is) i = _
  rw [Naming.add, hnone]

/-- Different variables are named one after the other. -/
theorem map_fst_addAll (source : SourceNames) (h : is.Nodup) :
    (addAll source [] is).map Prod.fst = is.reverse := by
  induction is using List.reverseRecOn with
  | nil => rfl
  | append_singleton is i ih =>
    rw [← List.concat_eq_append, List.nodup_concat] at h
    rw [addAll_concat, List.map_cons, ih h.2, List.reverse_append]
    · rfl
    · intro p hp e
      rcases mem_of_mem_addAll hp with hp | hp
      · cases hp
      · exact h.1 (e ▸ hp)

end Naming

end PrologTerms
