import Mathlib.Data.List.Flatten
import Mathlib.Data.List.Perm.Subperm
import RegularLanguages.Dfa.Minimize
import RegularLanguages.Proofs.Dfa.Building
import RegularLanguages.Proofs.Dfa.Partition

/-! # The names of merged states

The names of the groups are all different: a state that is alone has its own
name, and a joined name is made free of those in use, for which as many marks
as there are names in use are enough.  So the states that are added for the
names are as many as the groups, and each group has its own. -/
set_option autoImplicit false
namespace RegularLanguages.Dfa

variable {d : Dfa} {groups : List (List Nat)} {taken names : List String} {name : String}

/-! ## Free names -/

def marked (name : String) : Nat → String
  | 0 => name
  | marks + 1 => marked (name ++ "'") marks

theorem length_marked (name : String) (marks : Nat) :
    (marked name marks).length = name.length + marks := by
  induction marks generalizing name with
  | zero => rfl
  | succ marks ih =>
      rw [marked, ih, String.length_append]
      exact Nat.add_right_comm _ _ _

/-- If the tries run out on a name in use, every name tried before was in use
as well. -/
theorem marked_mem_of_freeName {tries : Nat} (inUse : freeName taken tries name ∈ taken) :
    ∀ marks ≤ tries, marked name marks ∈ taken := by
  induction tries generalizing name with
  | zero =>
      intro marks le
      obtain rfl := Nat.le_zero.1 le
      exact inUse
  | succ tries ih =>
      rw [freeName] at inUse
      by_cases mem : name ∈ taken
      · rw [if_pos mem] at inUse
        intro marks le
        cases marks with
        | zero => exact mem
        | succ marks => exact ih inUse marks (Nat.le_of_succ_le_succ le)
      · rw [if_neg mem] at inUse
        exact absurd inUse mem

/-- As many tries as there are names in use are enough, since names with
different numbers of marks are different. -/
theorem freeName_not_mem (taken : List String) (name : String) :
    freeName taken taken.length name ∉ taken := by
  intro inUse
  have all := marked_mem_of_freeName inUse
  have different : ((List.range (taken.length + 1)).map (marked name)).Nodup := by
    refine List.Nodup.map (fun i j same => ?_) List.nodup_range
    have lengths := congrArg String.length same
    rw [length_marked, length_marked] at lengths
    exact Nat.add_left_cancel lengths
  have inside : (List.range (taken.length + 1)).map (marked name) ⊆ taken := by
    intro other mem
    obtain ⟨marks, lt, rfl⟩ := List.mem_map.1 mem
    exact all marks (Nat.le_of_lt_succ (List.mem_range.1 lt))
  have fits := (different.subperm inside).length_le
  rw [List.length_map, List.length_range] at fits
  exact Nat.not_succ_le_self _ fits

/-! ## The names of the groups -/

def ownNames (d : Dfa) (groups : List (List Nat)) : List String :=
  (groups.filter (·.length = 1)).flatMap (·.map d.idOf)

theorem ownNames_single (d : Dfa) (q : Nat) (rest : List (List Nat)) :
    d.ownNames ([q] :: rest) = d.idOf q :: d.ownNames rest := rfl

theorem ownNames_several {group : List Nat} (several : ∀ q, group ≠ [q])
    (rest : List (List Nat)) : d.ownNames (group :: rest) = d.ownNames rest := by
  have length : group.length ≠ 1 := fun one =>
    (List.length_eq_one_iff.1 one).elim several
  rw [ownNames, List.filter_cons_of_neg (by simpa using length), ownNames]

theorem length_namesFrom (d : Dfa) (taken : List String) (groups : List (List Nat)) :
    (d.namesFrom taken groups).length = groups.length := by
  fun_induction namesFrom d taken groups with
  | case1 => rfl
  | case2 taken q rest ih => rw [List.length_cons, ih, List.length_cons]
  | case3 taken group rest several name ih => rw [List.length_cons, ih, List.length_cons]

theorem mem_namesFrom (mem : name ∈ d.namesFrom taken groups) :
    name ∈ d.ownNames groups ∨ name ∉ taken := by
  fun_induction namesFrom d taken groups with
  | case1 => cases mem
  | case2 taken q rest ih =>
      rw [ownNames_single]
      rcases List.mem_cons.1 mem with rfl | mem
      · exact .inl List.mem_cons_self
      · exact (ih mem).imp_left (List.mem_cons_of_mem _)
  | case3 taken group rest several new ih =>
      rw [ownNames_several several]
      rcases List.mem_cons.1 mem with rfl | mem
      · exact .inr (freeName_not_mem taken _)
      · exact (ih mem).imp_right fun free inUse => free (List.mem_cons_of_mem new inUse)

theorem nodup_namesFrom (own : ∀ name ∈ d.ownNames groups, name ∈ taken)
    (different : (d.ownNames groups).Nodup) : (d.namesFrom taken groups).Nodup := by
  fun_induction namesFrom d taken groups with
  | case1 => exact List.nodup_nil
  | case2 taken q rest ih =>
      rw [ownNames_single] at own different
      have alone := List.nodup_cons.1 different
      refine List.nodup_cons.2 ⟨fun mem => ?_,
        ih (fun name mem => own name (List.mem_cons_of_mem _ mem)) alone.2⟩
      rcases mem_namesFrom mem with twice | free
      · exact alone.1 twice
      · exact free (own (d.idOf q) List.mem_cons_self)
  | case3 taken group rest several new ih =>
      rw [ownNames_several several] at own different
      refine List.nodup_cons.2 ⟨fun mem => ?_,
        ih (fun name mem => List.mem_cons_of_mem new (own name mem)) different⟩
      rcases mem_namesFrom mem with alone | free
      · exact freeName_not_mem taken _ (own new alone)
      · exact free List.mem_cons_self

theorem nodup_ownNames (ids : d.ids.Nodup) (parts : Partitions d groups) :
    (d.ownNames groups).Nodup := by
  have single : (groups.filter (·.length = 1)).flatten.Sublist groups.flatten :=
    List.filter_sublist.flatten
  rw [ownNames, List.flatMap_def, ← List.map_flatten]
  refine List.Nodup.map_on ?_ (parts.nodup.sublist single)
  intro p memP q memQ same
  exact idOf_inj_of_nodup ids ((parts.mem_iff p).1 (single.subset memP))
    ((parts.mem_iff q).1 (single.subset memQ)) same

theorem nodup_groupNames_of_ids (ids : d.ids.Nodup) (parts : Partitions d groups) :
    (d.groupNames groups).Nodup :=
  nodup_namesFrom (fun _ mem => mem) (nodup_ownNames ids parts)

theorem nodup_groupNames (wf : WellFormed d) (parts : Partitions d groups) :
    (d.groupNames groups).Nodup := nodup_groupNames_of_ids wf.nodup_ids parts

theorem length_groupNames (d : Dfa) (groups : List (List Nat)) :
    (d.groupNames groups).length = groups.length := length_namesFrom _ _ _

/-! ## The states of the groups -/

theorem ids_namedStates (alphabet : List Char) (start : String) (names : List String) :
    (namedStates alphabet start names).ids = names.foldl Distinct.add [start] :=
  (foldl_addState names (new alphabet start)).1

theorem wellFormed_namedStates (alphabet : List Char) (start : String) (names : List String) :
    WellFormed (namedStates alphabet start names) :=
  (wellFormed_new alphabet start).addStates names

section GroupStates

variable {g h i : Nat}

theorem exists_groupName (lt : g < groups.length) :
    ∃ name, (d.groupNames groups)[g]? = some name :=
  ⟨_, List.getElem?_eq_getElem (length_groupNames d groups ▸ lt)⟩

theorem getElem?_groupNames (parts : Partitions d groups) (pos : 0 < d.size) :
    (d.groupNames groups)[groupOf groups 0]? =
      some ((d.groupNames groups)[groupOf groups 0]?.getD "") := by
  obtain ⟨name, named⟩ := exists_groupName (d := d) (parts.groupOf_lt pos)
  rw [named]
  rfl

theorem wellFormed_groupStates (d : Dfa) (groups : List (List Nat)) :
    WellFormed (d.groupStates groups) := wellFormed_namedStates _ _ _

theorem mem_ids_groupStates (parts : Partitions d groups) (pos : 0 < d.size) :
    name ∈ (d.groupStates groups).ids ↔ name ∈ d.groupNames groups := by
  have start := List.mem_of_getElem? (getElem?_groupNames parts pos)
  rw [groupStates, ids_namedStates, Distinct.mem_foldl_add, List.mem_singleton]
  exact or_iff_right_of_imp fun same => same ▸ start

theorem size_groupStates (wf : WellFormed d) (parts : Partitions d groups) :
    (d.groupStates groups).size = groups.length := by
  have same := (List.perm_ext_iff_of_nodup (wellFormed_groupStates d groups).nodup_ids
    (nodup_groupNames wf parts)).2 fun _ => mem_ids_groupStates parts wf.size_pos
  rw [← length_ids, same.length_eq, length_groupNames]

theorem ids_groupState (parts : Partitions d groups) (pos : 0 < d.size) (lt : g < groups.length) :
    (d.groupStates groups).ids[groupState (d.groupNames groups) (d.groupStates groups) g]? =
      (d.groupNames groups)[g]? := by
  obtain ⟨name, there⟩ := exists_groupName (d := d) lt
  obtain ⟨i, found⟩ := Option.isSome_iff_exists.1 (state?_isSome_iff.2
    ((mem_ids_groupStates parts pos).2 (List.mem_of_getElem? there)))
  rw [groupState, there, Option.bind_some, found, Option.getD_some]
  exact ids_of_state? found

theorem groupState_lt (wf : WellFormed d) (parts : Partitions d groups) (lt : g < groups.length) :
    groupState (d.groupNames groups) (d.groupStates groups) g < groups.length := by
  obtain ⟨name, named⟩ := exists_groupName (d := d) lt
  have there := (ids_groupState parts wf.size_pos lt).trans named
  rw [← size_groupStates wf parts, ← length_ids]
  exact (List.getElem?_eq_some_iff.1 there).1

theorem groupState_inj (wf : WellFormed d) (parts : Partitions d groups) (ltG : g < groups.length)
    (ltH : h < groups.length)
    (same : groupState (d.groupNames groups) (d.groupStates groups) g =
      groupState (d.groupNames groups) (d.groupStates groups) h) : g = h := by
  have there := ids_groupState parts wf.size_pos ltG
  rw [same, ids_groupState parts wf.size_pos ltH] at there
  exact ((List.getElem?_inj (length_groupNames d groups ▸ ltH) (nodup_groupNames wf parts)).1
    there).symm

theorem exists_groupState (wf : WellFormed d) (parts : Partitions d groups)
    (lt : i < groups.length) :
    ∃ g < groups.length, groupState (d.groupNames groups) (d.groupStates groups) g = i := by
  have inside : i < (d.groupStates groups).ids.length := by
    rw [length_ids, size_groupStates wf parts]
    exact lt
  have mem := (mem_ids_groupStates parts wf.size_pos).1 (List.getElem_mem inside)
  obtain ⟨g, there⟩ := List.mem_iff_getElem?.1 mem
  have ltG : g < groups.length :=
    length_groupNames d groups ▸ (List.getElem?_eq_some_iff.1 there).1
  refine ⟨g, ltG, ?_⟩
  have found := ids_groupState parts wf.size_pos ltG
  rw [there, ← List.getElem?_eq_getElem inside] at found
  exact ((List.getElem?_inj inside (wellFormed_groupStates d groups).nodup_ids).1 found.symm).symm

theorem groupState_start (parts : Partitions d groups) (pos : 0 < d.size) :
    groupState (d.groupNames groups) (d.groupStates groups) (groupOf groups 0) = 0 := by
  have first : (d.groupStates groups).ids[0]? =
      some ((d.groupNames groups)[groupOf groups 0]?.getD "") := by
    rw [groupStates, ids_namedStates, ← List.head?_eq_getElem?]
    exact Distinct.head?_foldl_add _ _ []
  rw [groupState, getElem?_groupNames parts pos, Option.bind_some,
    state?_of_ids (wellFormed_groupStates d groups).nodup_ids first, Option.getD_some]

end GroupStates

end RegularLanguages.Dfa
