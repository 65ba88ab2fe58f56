import RegularLanguages.Proofs.Dfa.Reading
import RegularLanguages.Proofs.Nfa.Determinize

/-! # States with names that are not empty

A table may list a state with the empty name, which then neither starts nor has
transitions.  Merging keeps it that way: a group is named after its only member,
or after several, and then its name has a comma at least. -/
set_option autoImplicit false
namespace RegularLanguages.Dfa

variable {d m : Dfa} {t : Table} {doc : Document} {groups : List (List Nat)} {group : List Nat}
  {taken : List String} {name : String} {g q : Nat}

/-! ## Tables and documents -/

theorem named_ofTable (read : ofTable t = .ok d) : Named d := by
  obtain ⟨proper, h⟩ := readFrom_ofTable read
  obtain ⟨start, -, given, nonempty⟩ := proper.start
  constructor
  · rw [start_ids h, given]
    exact nonempty
  · intro e edge
    have proper := proper.rows (d.row e) ((h.rows _).1 ⟨e, edge, rfl⟩)
    exact ⟨proper.source_ne, proper.target_ne⟩

theorem named_ofDocument (read : ofDocument doc = .ok d) : Named d := by
  obtain ⟨proper, h⟩ := holds_ofDocument read
  obtain ⟨start, -, given, nonempty⟩ := proper.start
  constructor
  · rw [h.start]
    exact Option.some.inj given ▸ nonempty
  · intro e edge
    have row : d.row e ∈ d.document.transitions := mem_transitions_document.2 ⟨e, edge, rfl⟩
    have proper := proper.rows (d.row e) ((h.rows _).1 row)
    exact ⟨proper.source_ne, proper.target_ne⟩

/-! ## Merged states -/

theorem comma_mem_joinedName (several : 1 < group.length) :
    ',' ∈ (d.joinedName group).toList := by
  have length : ((group.map d.idOf).mergeSort (· ≤ ·)).length = group.length := by simp
  unfold joinedName
  match sorted : (group.map d.idOf).mergeSort (· ≤ ·) with
  | [] => simp [← length, sorted] at several
  | [_] => simp [← length, sorted] at several
  | first :: second :: rest => simp [String.intercalate_cons_cons]

theorem joinedName_ne_empty (several : 1 < group.length) : d.joinedName group ≠ "" := by
  intro empty
  have comma := comma_mem_joinedName (d := d) several
  rw [empty] at comma
  exact absurd comma List.not_mem_nil

theorem freeName_ne_empty (tries : Nat) (nonempty : name ≠ "") :
    freeName taken tries name ≠ "" := by
  induction tries generalizing name with
  | zero => exact nonempty
  | succ tries ih =>
      unfold freeName
      split
      · apply ih
        simp [String.append_eq_empty_iff]
      · exact nonempty

/-- The only empty name of a group is that of a state which is alone. -/
theorem namesFrom_ne_empty (nonempty : ∀ group ∈ groups, group ≠ [])
    (there : groups[g]? = some group) (named : (d.namesFrom taken groups)[g]? = some name)
    (mem : q ∈ group) (hasId : d.idOf q ≠ "") : name ≠ "" := by
  fun_induction namesFrom d taken groups generalizing g
  case case1 => simp at there
  case case2 taken p rest ih =>
    cases g with
    | zero =>
        simp only [List.getElem?_cons_zero, Option.some.injEq] at there named
        subst there named
        rw [List.mem_singleton] at mem
        exact mem ▸ hasId
    | succ g =>
        rw [List.getElem?_cons_succ] at there named
        exact ih (List.forall_mem_cons.1 nonempty).2 there named
  case case3 taken first rest several joined ih =>
    cases g with
    | zero =>
        simp only [List.getElem?_cons_zero, Option.some.injEq] at there named
        subst there named
        -- The group has several members, and a comma stands between their names.
        apply freeName_ne_empty
        apply joinedName_ne_empty
        have pos := List.length_pos_of_mem mem
        have more : first.length ≠ 1 := by
          intro one
          obtain ⟨p, only⟩ := List.length_eq_one_iff.1 one
          exact several p only
        omega
    | succ g =>
        rw [List.getElem?_cons_succ] at there named
        exact ih (List.forall_mem_cons.1 nonempty).2 there named

theorem ids_minimize (wf : WellFormed d) (ok : d.minimize = .ok m) :
    m.ids = (d.groupStates d.equivalenceGroups).ids := by
  rw [ids, (extended_minimize wf ok).states, markedStates_eq]
  exact (foldl_setAccepting _ _).1

theorem ids_mergedState (wf : WellFormed d) (ok : d.minimize = .ok m) (lt : q < d.size) :
    m.ids[d.mergedState q]? =
      (d.groupNames d.equivalenceGroups)[groupOf d.equivalenceGroups q]? := by
  have parts := (sound_equivalenceGroups wf).parts
  rw [ids_minimize wf ok]
  exact ids_groupState parts wf.size_pos (parts.groupOf_lt lt)

theorem idOf_mergedState_ne_empty (wf : WellFormed d) (ok : d.minimize = .ok m) (lt : q < d.size)
    (hasId : d.idOf q ≠ "") : m.idOf (d.mergedState q) ≠ "" := by
  have parts := (sound_equivalenceGroups wf).parts
  obtain ⟨group, there, mem⟩ := parts.exists_group lt
  obtain ⟨name, named⟩ := exists_groupName (d := d) (parts.groupOf_lt lt)
  rw [idOf_eq, ids_mergedState wf ok lt, named]
  exact namesFrom_ne_empty parts.nonempty there named mem hasId

theorem named_minimize (wf : WellFormed d) (named : Named d) (ok : d.minimize = .ok m) :
    Named m := by
  have keeps : Morphism d m d.mergedState := (merged_minimize wf ok).morphism
  constructor
  · rw [← keeps.start]
    exact idOf_mergedState_ne_empty wf ok wf.size_pos named.start
  · intro e edge
    obtain ⟨f, original, source, -, target⟩ := (mem_edges_minimize wf ok).1 edge
    have ends := named.ends f original
    have inside := wf.ends f original
    rw [← source, ← target]
    constructor
    · exact idOf_mergedState_ne_empty wf ok inside.1 ends.1
    · exact idOf_mergedState_ne_empty wf ok inside.2 ends.2

end RegularLanguages.Dfa

namespace RegularLanguages

/-! ## Determinized automata -/

namespace Nfa

open Subset Discovery

variable {n : Nfa} {settings : Subset.Settings} {d : Dfa}

theorem named_determinize (wf : WellFormed n) (ok : n.determinize settings = .ok d) :
    Dfa.Named d := by
  have whole := wellFormed_determinize wf ok
  have numbered : ∀ q < d.size, d.idOf q ≠ "" := by
    intro q lt
    rw [idOf_determinize ok lt]
    simp [String.append_eq_empty_iff]
  constructor
  · exact numbered 0 whole.size_pos
  · intro e edge
    have ends := whole.ends e edge
    exact ⟨numbered _ ends.1, numbered _ ends.2⟩

end Nfa

end RegularLanguages
