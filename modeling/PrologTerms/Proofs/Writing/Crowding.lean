import Mathlib.Data.List.Perm.Subperm
import PrologTerms.Proofs.Writing.Underlines

/-!
# Generated names that are source names

The name that is generated for a variable is no source name at first. If it has been given to another
variable, underlines are appended again, and these may lead to a source name after all. This needs many
variables with source names that are the same up to underlines: so many that the names that are given to
them reach from one that is tried for the variable to a source name behind it.
-/

namespace PrologTerms

/-- The variables `js` have source names that lie, by the number of their underlines, between the name
with `q` underlines after the address `i` and the first one that is no source name, which has `k`; and
there are enough of them to be given all names up to a source name with `n` underlines. -/
structure SourceNames.Crowds (source : SourceNames) (i : Address) (q k n : Nat) (js : List Address) :
    Prop where
  /-- With fewer underlines, there are source names only. -/
  first : ∀ m < k, underlined (addressName i) m ∈ source.map Prod.snd
  /-- This is the first name that is no source name. -/
  free : underlined (addressName i) k ∉ source.map Prod.snd
  /-- A name with more underlines is a source name again. -/
  again : k < n ∧ underlined (addressName i) n ∈ source.map Prod.snd
  /-- The variables are different from each other. -/
  nodup : js.Nodup
  /-- There are enough variables. -/
  enough : q < k ∧ n ≤ q + js.length
  /-- The source names of the variables lie there. -/
  between : ∀ j ∈ js, ∃ m, q ≤ m ∧ m < k ∧ source.lookup j = some (underlined (addressName i) m)

/-- There are variables among those `seen` that crowd the names after the address `i`. -/
def SourceNames.Crowded (source : SourceNames) (seen : Address → Prop) (i : Address) : Prop :=
  ∃ q k n js, source.Crowds i q k n js ∧ ∀ j ∈ js, seen j

/-- A crowd is larger than the number of names that it wants. -/
theorem SourceNames.Crowds.not_nodup {source : SourceNames} {i : Address} {q k n : Nat} {js : List Address}
    (h : source.Crowds i q k n js) : ¬ (source.map Prod.snd).Nodup := by
  intro hnodup
  choose! f hqf hfk hf using h.between
  have hinj : (js.map f).Nodup := by
    refine List.Nodup.map_on (fun j hj j' hj' e => ?_) h.nodup
    have hmem := Naming.mem_of_lookup (hf j hj)
    have hmem' := Naming.mem_of_lookup (hf j' hj')
    rw [e] at hmem
    exact congrArg Prod.fst (List.inj_on_of_nodup_map hnodup hmem hmem' rfl)
  have hsub : js.map f ⊆ List.range' q (k - q) := by
    intro m hm
    obtain ⟨j, hj, rfl⟩ := List.mem_map.1 hm
    have := hfk j hj
    exact List.mem_range'_1.2 ⟨hqf j hj, by omega⟩
  have hlen := (hinj.subperm hsub).length_le
  rw [List.length_map, List.length_range'] at hlen
  have := h.enough
  have := h.again
  omega

namespace Naming

variable {source : SourceNames} {given : Naming} {seen : Address → Prop} {i j : Address} {name : String}
  {is js : List Address} {q k m n : Nat}

theorem Probed.eq_of_fst (hg : Probed source given) {s s' : String} (h : (i, s) ∈ given)
    (h' : (i, s') ∈ given) : s = s' :=
  congrArg Prod.snd (List.inj_on_of_nodup_map hg.nodup h h' rfl)

/-! ## A collision needs a crowd -/

/-- Another variable with a name after the address has a source name of this form, and all names from
its source name on are given. -/
theorem Probed.source_of_mem (hg : Probed source given) (h : (j, underlined (addressName i) m) ∈ given)
    (hne : j ≠ i) : ∃ p ≤ m, source.lookup j = some (underlined (addressName i) p) ∧
      ∀ x, p ≤ x → x < m → underlined (addressName i) x ∈ given.map Prod.snd := by
  obtain ⟨e, he, hall⟩ := hg.first _ h
  cases hj : source.lookup j with
  | none =>
    obtain ⟨y, hy, -⟩ := avoid_eq (source.map Prod.snd) (addressName j)
    dsimp only at he
    rw [wanted_of_none hj, hy, underlined_underlined] at he
    exact absurd (eq_of_underlined_addressName he.symm) hne
  | some s =>
    dsimp only at he hall
    rw [wanted_of_lookup hj] at he hall
    obtain ⟨p, hp, rfl⟩ := eq_underlined_addressName he.symm
    refine ⟨p, by omega, rfl, fun x hpx hxm => ?_⟩
    obtain ⟨y, rfl⟩ := Nat.exists_eq_add_of_le hpx
    rw [← underlined_underlined]
    exact hall y (by omega)

/-- A row of numbers goes back to a first one. -/
theorem exists_row_start {P : Nat → Prop} {n : Nat} (h : ∀ m, k ≤ m → m < n → P m) :
    ∃ q ≤ k, (∀ m, q ≤ m → m < n → P m) ∧ (q = 0 ∨ ¬ P (q - 1)) := by
  induction k with
  | zero => exact ⟨0, Nat.le_refl 0, h, .inl rfl⟩
  | succ k ih =>
    by_cases hk : P k
    · obtain ⟨q, hq, hrow⟩ := ih fun m hkm hmn => by
        rcases Nat.eq_or_lt_of_le hkm with rfl | hlt
        · exact hk
        · exact h m hlt hmn
      exact ⟨q, Nat.le_succ_of_le hq, hrow⟩
    · exact ⟨k + 1, Nat.le_refl _, h, .inr hk⟩

/-- If the name that is generated for a variable is a source name, then the names after its address are
crowded. -/
theorem Probed.crowds (hg : Probed source given) (hi : source.lookup i = none) (h : (i, name) ∈ given)
    (hname : name ∈ source.map Prod.snd) :
    ∃ q k n js, source.Crowds i q k n js ∧ ∀ j ∈ js, j ∈ given.map Prod.fst := by
  obtain ⟨k, hk, hfirst, hfree⟩ := avoid_eq (source.map Prod.snd) (addressName i)
  obtain ⟨d, hd, hgiven⟩ := hg.first _ h
  dsimp only at hd hgiven
  rw [wanted_of_none hi, hk] at hd hgiven
  rw [underlined_underlined] at hd
  subst hd
  have hd : 0 < d := by
    rw [Nat.pos_iff_ne_zero]
    rintro rfl
    exact hfree hname
  -- the first source name behind the free one, and the row of given names that leads to it
  have hagain : ∃ n, k < n ∧ underlined (addressName i) n ∈ source.map Prod.snd :=
    ⟨k + d, by omega, hname⟩
  obtain ⟨n, ⟨hkn, hn⟩, hnd, hnot⟩ : ∃ n, (k < n ∧ underlined (addressName i) n ∈ source.map Prod.snd) ∧
      n ≤ k + d ∧ ∀ m < n, k < m → underlined (addressName i) m ∉ source.map Prod.snd :=
    ⟨_, Nat.find_spec hagain, Nat.find_min' hagain ⟨by omega, hname⟩,
      fun m hm hkm hms => Nat.find_min hagain hm ⟨hkm, hms⟩⟩
  have htaken : ∀ m, k ≤ m → m < n → underlined (addressName i) m ∈ given.map Prod.snd := by
    intro m hkm hmn
    obtain ⟨x, rfl⟩ := Nat.exists_eq_add_of_le hkm
    rw [← underlined_underlined]
    exact hgiven x (by omega)
  obtain ⟨q, hqk, hrow, hstart⟩ := exists_row_start htaken
  have hslot : ∀ m, q ≤ m → m < n → ∃ j, (j, underlined (addressName i) m) ∈ given ∧
      ∃ p, q ≤ p ∧ p < k ∧ source.lookup j = some (underlined (addressName i) p) := by
    intro m hqm hmn
    obtain ⟨⟨j, s⟩, hj, hs⟩ := List.mem_map.1 (hrow m hqm hmn)
    dsimp only at hs
    subst hs
    have hne : j ≠ i := by
      rintro rfl
      have := underlined_inj.1 (hg.eq_of_fst hj h)
      omega
    obtain ⟨p, hpm, hsource, hbefore⟩ := hg.source_of_mem hj hne
    have hmem : underlined (addressName i) p ∈ source.map Prod.snd :=
      List.mem_map_of_mem (mem_of_lookup hsource)
    refine ⟨j, hj, p, ?_, ?_, hsource⟩
    · by_contra hlt
      rcases hstart with rfl | hstart
      · omega
      · exact hstart (hbefore (q - 1) (by omega) (by omega))
    · by_contra hge
      rcases Nat.eq_or_lt_of_le (Nat.le_of_not_lt hge) with rfl | hlt
      · exact hfree hmem
      · exact hnot p (by omega) hlt hmem
  choose! f hf hsource using hslot
  refine ⟨q, k, n, (List.range' q (n - q)).map f, ⟨hfirst, hfree, ⟨hkn, hn⟩, ?_, ⟨?_, ?_⟩, ?_⟩, ?_⟩
  · refine List.Nodup.map_on (fun m hm m' hm' e => ?_) List.nodup_range'
    rw [List.mem_range'_1] at hm hm'
    have hm := hf m hm.1 (by omega)
    rw [e] at hm
    exact underlined_inj.1 (hg.eq_of_fst hm (hf m' hm'.1 (by omega)))
  · obtain ⟨p, hqp, hpk, -⟩ := hsource k hqk hkn
    omega
  · rw [List.length_map, List.length_range']
    omega
  · intro j hj
    obtain ⟨m, hm, rfl⟩ := List.mem_map.1 hj
    rw [List.mem_range'_1] at hm
    exact hsource m hm.1 (by omega)
  · intro j hj
    obtain ⟨m, hm, rfl⟩ := List.mem_map.1 hj
    rw [List.mem_range'_1] at hm
    exact List.mem_map_of_mem (hf m hm.1 (by omega))

/-! ## A crowd makes a collision -/

/-- What a crowd is given are names in their order. -/
theorem names_of_crowd (hb : ∀ j ∈ js, ∃ m, q ≤ m ∧ m < k ∧
    source.lookup j = some (underlined (addressName i) m)) {s : String}
    (hs : s ∈ (addAll source [] js).map Prod.snd) : ∃ m, q ≤ m ∧ s = underlined (addressName i) m ∧
      ∀ x, k ≤ x → x ≤ m → underlined (addressName i) x ∈ (addAll source [] js).map Prod.snd := by
  obtain ⟨⟨j, s⟩, hj, rfl⟩ := List.mem_map.1 hs
  obtain ⟨e, he, hall⟩ := ((probed_nil source).addAll js).first _ hj
  obtain ⟨p, hqp, hpk, hsource⟩ := hb j ((mem_of_mem_addAll hj).resolve_left List.not_mem_nil)
  dsimp only at he hall hs
  rw [wanted_of_lookup hsource] at he hall
  rw [underlined_underlined] at he
  refine ⟨p + e, by omega, he, fun x hkx hx => ?_⟩
  obtain ⟨y, rfl⟩ := Nat.exists_eq_add_of_le (Nat.le_of_lt (Nat.lt_of_lt_of_le hpk hkx))
  rcases Nat.eq_or_lt_of_le hx with e | hlt
  · rw [e, ← he]
    exact hs
  · rw [← underlined_underlined]
    exact hall y (by omega)

/-- A name that has been given was given to one of the variables. -/
theorem exists_given {s : String} (h : s ∈ (addAll source [] js).map Prod.snd) :
    ∃ is j, is ++ [j] <+: js ∧ s ∉ (addAll source [] is).map Prod.snd ∧
      s ∈ (addAll source [] (is ++ [j])).map Prod.snd := by
  induction js using List.reverseRecOn with
  | nil => cases h
  | append_singleton js j ih =>
    by_cases hs : s ∈ (addAll source [] js).map Prod.snd
    · obtain ⟨is, j', hprefix, hrest⟩ := ih hs
      exact ⟨is, j', hprefix.trans (List.prefix_append js [j]), hrest⟩
    · exact ⟨js, j, List.prefix_rfl, hs, h⟩

/-- In a crowd, the last name before the source name is given to someone. -/
theorem last_mem (hjs : source.Crowds i q k (n + 1) js) :
    underlined (addressName i) n ∈ (addAll source [] js).map Prod.snd := by
  by_contra hnot
  have hprobed := (probed_nil source).addAll js
  have hsub : (addAll source [] js).map Prod.snd ⊆
      (List.range' q (n - q)).map (underlined (addressName i)) := by
    intro s hs
    obtain ⟨m, hqm, rfl, hall⟩ := names_of_crowd hjs.between hs
    refine List.mem_map_of_mem (List.mem_range'_1.2 ⟨hqm, ?_⟩)
    by_contra hge
    refine hnot (hall n ?_ (by omega))
    have := hjs.again.1
    omega
  have hlen := (hprobed.distinct.subperm hsub).length_le
  have hfst := congrArg List.length (map_fst_addAll source hjs.nodup)
  rw [List.length_map, List.length_map, List.length_range'] at hlen
  rw [List.length_map, List.length_reverse] at hfst
  have henough := hjs.enough
  have hagain := hjs.again.1
  omega

/-- Some of a crowd can be written so that exactly the names up to the source name are given. -/
theorem exists_filled (hjs : source.Crowds i q k (n + 1) js) : ∃ is, (∀ j ∈ is, j ∈ js) ∧
    (∀ x, k ≤ x → x ≤ n → underlined (addressName i) x ∈ (addAll source [] is).map Prod.snd) ∧
    underlined (addressName i) (n + 1) ∉ (addAll source [] is).map Prod.snd := by
  obtain ⟨is, j, hprefix, hold, hnew⟩ := exists_given (last_mem hjs)
  have hmem : ∀ j' ∈ is ++ [j], j' ∈ js := fun j' hj' => hprefix.subset hj'
  refine ⟨is ++ [j], hmem, fun x hkx hxn => ?_, fun hs => ?_⟩
  · obtain ⟨m, -, e, hall⟩ := names_of_crowd (fun j' hj' => hjs.between j' (hmem j' hj')) hnew
    rw [underlined_inj] at e
    exact hall x hkx (e ▸ hxn)
  · -- the last name was given in the last step, and the one behind it not before
    have hnodup := hjs.nodup.sublist hprefix.sublist
    rw [← List.concat_eq_append, List.nodup_concat] at hnodup
    have hstep : addAll source [] (is ++ [j]) =
        (j, nameFor source (addAll source [] is) j) :: addAll source [] is :=
      addAll_concat fun p hp e =>
        hnodup.1 (e ▸ (mem_of_mem_addAll hp).resolve_left List.not_mem_nil)
    rw [hstep, List.map_cons] at hnew hs
    have hname := (List.mem_cons.1 hnew).resolve_right hold
    rcases List.mem_cons.1 hs with e | hs
    · rw [← hname, underlined_inj] at e
      omega
    · obtain ⟨m, -, e, hall⟩ :=
        names_of_crowd (fun j' hj' => hjs.between j' (hmem j' (List.mem_append_left _ hj'))) hs
      rw [underlined_inj] at e
      exact hold (hall n (Nat.le_of_lt_succ hjs.again.1) (by omega))

/-- If the names after the address of a variable are crowded, then some of the crowd can be written
before the variable so that the name that is generated for it is a source name. -/
theorem exists_source_name (hjs : source.Crowds i q k n js) (hi : source.lookup i = none) :
    ∃ is name, (∀ j ∈ is, j ∈ js) ∧ (addAll source [] (is ++ [i])).lookup i = some name ∧
      name ∈ source.map Prod.snd := by
  have hkn := hjs.again.1
  obtain ⟨n, rfl⟩ : ∃ l, n = l + 1 := Nat.exists_eq_succ_of_ne_zero (by omega)
  obtain ⟨is, hmem, hgiven, hbehind⟩ := exists_filled hjs
  have hwanted : wanted source i = underlined (addressName i) k := by
    rw [wanted_of_none hi]
    exact avoid_eq_of_first hjs.first hjs.free
  have hname : nameFor source (addAll source [] is) i = underlined (addressName i) (n + 1) := by
    obtain ⟨d, hd⟩ : ∃ d, n + 1 = k + d := Nat.exists_eq_add_of_le (Nat.le_of_lt hkn)
    rw [nameFor_eq, hwanted, hd, ← underlined_underlined]
    refine avoid_eq_of_first (fun x hx => ?_) ?_
    · rw [underlined_underlined]
      exact hgiven (k + x) (by omega) (by omega)
    · rwa [underlined_underlined, ← hd]
  refine ⟨is, underlined (addressName i) (n + 1), hmem, ?_, hjs.again.2⟩
  rw [addAll_concat, hname, List.lookup_cons_self]
  rintro p hp rfl
  obtain ⟨m, -, -, hsource⟩ :=
    hjs.between p.1 (hmem _ ((mem_of_mem_addAll hp).resolve_left List.not_mem_nil))
  rw [hi] at hsource
  cases hsource

/-- The name that is generated for a variable can be a source name, if the variables are written in some
order, if and only if the names after its address are crowded. -/
theorem crowded_iff (hseen : seen i) (hi : source.lookup i = none) : source.Crowded seen i ↔
    ∃ is name, (∀ j ∈ is, seen j) ∧ (addAll source [] is).lookup i = some name ∧
      name ∈ source.map Prod.snd := by
  constructor
  · rintro ⟨q, k, n, js, hjs, hall⟩
    obtain ⟨is, name, hmem, hlookup, hname⟩ := exists_source_name hjs hi
    refine ⟨is ++ [i], name, fun j hj => ?_, hlookup, hname⟩
    rcases List.mem_append.1 hj with hj | hj
    · exact hall j (hmem j hj)
    · exact List.mem_singleton.1 hj ▸ hseen
  · rintro ⟨is, name, hall, hlookup, hname⟩
    obtain ⟨q, k, n, js, hjs, hmem⟩ :=
      ((probed_nil source).addAll is).crowds hi (mem_of_lookup hlookup) hname
    refine ⟨q, k, n, js, hjs, fun j hj => ?_⟩
    obtain ⟨p, hp, rfl⟩ := List.mem_map.1 (hmem j hj)
    exact hall _ ((mem_of_mem_addAll hp).resolve_left List.not_mem_nil)

end Naming

end PrologTerms
