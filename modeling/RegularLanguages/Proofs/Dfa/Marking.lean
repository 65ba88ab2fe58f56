import Mathlib.Data.List.Permutation
import Mathlib.Data.List.Sort
import Mathlib.Data.String.Basic
import RegularLanguages.Dfa.Marking
import RegularLanguages.Proofs.Dfa.Naming

/-! # The marks make names different

Both ways to mark a name end with the first of its marked forms that is not in
use, of which there is one only (`FirstFree`): the one that counts its tries has
enough of them, and the one that does not goes on until the set takes the name.
So the names that are handed out are those of the groups, and the set holds what
is in use: the names of the states that are alone and those handed out before
(`handOut_eq`). -/
set_option autoImplicit false
namespace RegularLanguages.Dfa

variable {d : Dfa} {groups : List (List Nat)} {taken : List String} {set : Std.HashSet String}
  {name : String} {marks more : Nat}

/-! ## The first free form of a name -/

/-- With so many marks a name is not in use, but with fewer it is. -/
structure FirstFree (taken : List String) (name : String) (marks : Nat) : Prop where
  free : marked name marks ∉ taken
  inUse : ∀ fewer < marks, marked name fewer ∈ taken

theorem FirstFree.eq (h : FirstFree taken name marks) (g : FirstFree taken name more) :
    marks = more := by
  rcases Nat.lt_trichotomy marks more with less | same | less
  · exact absurd (g.inUse marks less) h.free
  · exact same
  · exact absurd (h.inUse more less) g.free

theorem FirstFree.mark (inUse : name ∈ taken) (h : FirstFree taken (name ++ "'") marks) :
    FirstFree taken name (marks + 1) := by
  refine ⟨h.free, fun fewer less => ?_⟩
  cases fewer with
  | zero => exact inUse
  | succ fewer => exact h.inUse fewer (Nat.lt_of_succ_lt_succ less)

theorem freeName_cases (taken : List String) (tries : Nat) (name : String) :
    freeName taken tries name ∈ taken ∨
      ∃ marks, freeName taken tries name = marked name marks ∧ FirstFree taken name marks := by
  induction tries generalizing name with
  | zero =>
      by_cases inUse : name ∈ taken
      · exact .inl inUse
      · exact .inr ⟨0, rfl, inUse, fun _ less => absurd less (Nat.not_lt_zero _)⟩
  | succ tries ih =>
      rw [freeName]
      by_cases inUse : name ∈ taken
      · rw [if_pos inUse]
        rcases ih (name ++ "'") with still | ⟨marks, same, first⟩
        · exact .inl still
        · exact .inr ⟨marks + 1, same, first.mark inUse⟩
      · rw [if_neg inUse]
        exact .inr ⟨0, rfl, inUse, fun _ less => absurd less (Nat.not_lt_zero _)⟩

theorem exists_freeName (taken : List String) (name : String) :
    ∃ marks, freeName taken taken.length name = marked name marks ∧
      FirstFree taken name marks :=
  (freeName_cases taken taken.length name).resolve_left (freeName_not_mem taken name)

/-- The loop ends with the first free form, which the set has from then on. -/
theorem exists_takeName (same : ∀ other, other ∈ set ↔ other ∈ taken) (name : String) :
    ∃ marks, (takeName set name).2 = marked name marks ∧ FirstFree taken name marks ∧
      (takeName set name).1 = set.insert (marked name marks) := by
  fun_induction takeName set name with
  | case1 name inUse _ ih =>
      obtain ⟨marks, result, first, added⟩ := ih
      exact ⟨marks + 1, result, first.mark ((same name).1 inUse), added⟩
  | case2 name free =>
      refine ⟨0, rfl, ⟨?_, fun _ less => absurd less (Nat.not_lt_zero _)⟩, rfl⟩
      exact fun inUse => free ((same name).2 inUse)

theorem takeName_eq (same : ∀ other, other ∈ set ↔ other ∈ taken) (name : String) :
    takeName set name = (set.insert (freeName taken taken.length name),
      freeName taken taken.length name) := by
  obtain ⟨marks, result, first, added⟩ := exists_takeName same name
  obtain ⟨more, found, firstToo⟩ := exists_freeName taken name
  rw [found, ← first.eq firstToo]
  exact Prod.ext added result

/-! ## Handing out -/

theorem handOut_eq (d : Dfa) (taken : List String) (groups : List (List Nat)) :
    ∀ set : Std.HashSet String, (∀ other, other ∈ set ↔ other ∈ taken) →
      d.handOut set groups = d.namesFrom taken groups := by
  fun_induction namesFrom d taken groups with
  | case1 => exact fun _ _ => rfl
  | case2 taken q rest ih =>
      intro set same
      rw [handOut, ih set same]
  | case3 taken group rest several name ih =>
      intro set same
      have grown : ∀ other, other ∈ (takeName set (d.joinedName group)).1 ↔
          other ∈ name :: taken := fun other => by
        rw [takeName_eq same, Std.HashSet.mem_insert, List.mem_cons, same, beq_iff_eq, eq_comm]
      have step : d.handOut set (group :: rest) = (takeName set (d.joinedName group)).2 ::
          d.handOut (takeName set (d.joinedName group)).1 rest := by
        rw [handOut]
        exact several
      rw [step, ih _ grown, takeName_eq same]

theorem uniqueNames_eq (d : Dfa) (groups : List (List Nat)) :
    d.uniqueNames groups = d.groupNames groups :=
  handOut_eq d _ groups _ fun other => by rw [Std.HashSet.mem_ofList, List.contains_iff_mem]

/-! ## The name of each group -/

theorem getElem?_namesFrom_single (d : Dfa) (taken : List String) (groups : List (List Nat)) :
    ∀ (i q : Nat), groups[i]? = some [q] → (d.namesFrom taken groups)[i]? = some (d.idOf q) := by
  fun_induction namesFrom d taken groups with
  | case1 => exact fun _ _ there => by cases there
  | case2 taken p rest ih =>
      intro i q there
      cases i with
      | zero =>
          obtain rfl : p = q := List.singleton_inj.1 (Option.some.inj there)
          rfl
      | succ i => exact ih i q there
  | case3 taken group rest several name ih =>
      intro i q there
      cases i with
      | zero => exact absurd (Option.some.inj there) (several q)
      | succ i => exact ih i q there

theorem exists_marks (d : Dfa) (taken : List String) (groups : List (List Nat)) :
    ∀ (i : Nat) (group : List Nat), groups[i]? = some group → (∀ q, group ≠ [q]) →
      ∃ marks, (d.namesFrom taken groups)[i]? = some (marked (d.joinedName group) marks) := by
  fun_induction namesFrom d taken groups with
  | case1 => exact fun _ _ there => by cases there
  | case2 taken p rest ih =>
      intro i group there several
      cases i with
      | zero => exact absurd (Option.some.inj there).symm (several p)
      | succ i => exact ih i group there several
  | case3 taken first rest _ name ih =>
      intro i group there several
      cases i with
      | zero =>
          obtain rfl : first = group := Option.some.inj there
          obtain ⟨marks, found, -⟩ := exists_freeName taken (d.joinedName first)
          exact ⟨marks, congrArg some found⟩
      | succ i => exact ih i group there several

theorem exists_joinedName (d : Dfa) (group : List Nat) :
    ∃ names : List String, names.Perm (group.map d.idOf) ∧ names.Pairwise (· ≤ ·) ∧
      d.joinedName group = ",".intercalate names :=
  ⟨_, List.mergeSort_perm _ _, List.pairwise_mergeSort' (· ≤ ·) _, rfl⟩

/-- The names that are handed out to the groups of a partition are all different,
however many marks this takes.  A state that is alone keeps its name; the name of
several is their names in order, joined by commas, with some number of marks at
the end. -/
theorem uniqueNames_distinct (ids : d.ids.Nodup) (parts : Partitions d groups) :
    d.uniqueNames groups = d.groupNames groups ∧
      (d.uniqueNames groups).length = groups.length ∧
      (d.uniqueNames groups).Nodup ∧
      ∀ (i : Nat) (group : List Nat), groups[i]? = some group →
        (∀ q, group = [q] → (d.uniqueNames groups)[i]? = some (d.idOf q)) ∧
        ((∀ q, group ≠ [q]) → ∃ names marks,
          names.Perm (group.map d.idOf) ∧ names.Pairwise (· ≤ ·) ∧
          (d.uniqueNames groups)[i]? = some (marked (",".intercalate names) marks)) := by
  rw [uniqueNames_eq]
  refine ⟨rfl, length_groupNames d groups, nodup_groupNames_of_ids ids parts, ?_⟩
  intro i group there
  constructor
  · rintro q rfl
    exact getElem?_namesFrom_single d _ groups i q there
  · intro several
    obtain ⟨marks, named⟩ := exists_marks d (d.ownNames groups) groups i group there several
    obtain ⟨names, members, sorted, joined⟩ := exists_joinedName d group
    exact ⟨names, marks, members, sorted, joined ▸ named⟩

/-- Two pairs of names are joined alike, and a state has the name that one mark
gives. -/
def crowded : Dfa where
  states := ["", "a", "b,c", "a,b", "c", "a,b,c'"].map (⟨·, false⟩)
  edges := []
  alphabet := []

theorem partitions_crowded : Partitions crowded [[3, 4], [0], [2, 1], [5]] where
  nonempty := by decide
  nodup := by decide
  mem_iff := fun q => by
    change q ∈ [3, 4, 0, 2, 1, 5] ↔ q < 6
    simp only [List.mem_cons, List.not_mem_nil, or_false]
    omega

theorem uniqueNames_distinct_crowded :
    crowded.ids.Nodup ∧ Partitions crowded [[3, 4], [0], [2, 1], [5]] ∧
      (crowded.uniqueNames [[3, 4], [0], [2, 1], [5]]).Nodup ∧
      crowded.uniqueNames [[3, 4], [0], [2, 1], [5]] = ["a,b,c", "", "a,b,c''", "a,b,c'"] := by
  have ids : crowded.ids.Nodup := by decide
  obtain ⟨same, -, different, -⟩ := uniqueNames_distinct ids partitions_crowded
  have names : crowded.groupNames [[3, 4], [0], [2, 1], [5]] =
      ["a,b,c", "", "a,b,c''", "a,b,c'"] := by cbv
  exact ⟨ids, partitions_crowded, different, same.trans names⟩

end RegularLanguages.Dfa
