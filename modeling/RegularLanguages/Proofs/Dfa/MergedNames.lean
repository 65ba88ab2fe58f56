import Mathlib.Data.List.Permutation
import RegularLanguages.Proofs.Dfa.Named
import RegularLanguages.Proofs.Dfa.Reordering

/-! # Minimizing reordered automata

Automata that are written alike differ in the order of their parts, and refining
goes by that order.  But the groups that it ends with are those of
indistinguishable states, and a renumbering that keeps the names keeps these
apart or together.  So the same names are merged in both
(`Reordering.exists_renumbering`).  If no name has a comma, then joined names can
be taken apart again, so no joined name is taken and none gets a mark
(`groupNames_eq_map`), and the minimized automata are written alike as well
(`minimize_ignores_order`). -/
set_option autoImplicit false
namespace RegularLanguages.Dfa

variable {d m d' m' : Dfa} {f : Nat → Nat} {groups : List (List Nat)} {group other : List Nat}
  {taken : List String} {name : String} {p q i : Nat}

/-! ## Groups of names -/

theorem exists_equivalenceGroup (wf : WellFormed d) (lt : q < d.size) :
    ∃ group, d.equivalenceGroups[groupOf d.equivalenceGroups q]? = some group ∧
      ∀ p, p ∈ group ↔ p < d.size ∧ Indistinguishable d p q := by
  have parts := (sound_equivalenceGroups wf).parts
  obtain ⟨group, there, -⟩ := parts.exists_group lt
  refine ⟨group, there, fun p => ⟨?_, ?_⟩⟩
  · intro mem
    have ltP := parts.mem there mem
    exact ⟨ltP, (groupOf_equivalenceGroups_eq_iff wf ltP lt).1 (parts.groupOf_eq there mem)⟩
  · intro ⟨ltP, same⟩
    obtain ⟨own, there', mem⟩ := parts.exists_group ltP
    rw [(groupOf_equivalenceGroups_eq_iff wf ltP lt).2 same, there] at there'
    rwa [Option.some.inj there']

theorem nodup_names (wf : WellFormed d) (parts : Partitions d groups) (mem : group ∈ groups) :
    (group.map d.idOf).Nodup := by
  apply List.Nodup.map_on _ ((List.nodup_flatten.1 parts.nodup).1 group mem)
  intro p memP q memQ same
  exact wf.idOf_inj (parts.lt_of_mem mem memP) (parts.lt_of_mem mem memQ) same

def mergedNames (d : Dfa) (i : Nat) : Set String :=
  {id | ∃ q < d.size, d.mergedState q = i ∧ d.idOf q = id}

theorem mem_mergedNames : name ∈ d.mergedNames i ↔
    ∃ q < d.size, d.mergedState q = i ∧ d.idOf q = name := Iff.rfl

namespace Reordering

theorem indistinguishable_iff (h : Reordering d m f) (wf : WellFormed d) (ltP : p < d.size)
    (ltQ : q < d.size) : Indistinguishable m (f p) (f q) ↔ Indistinguishable d p q :=
  h.renumbering.morphism.indistinguishable_iff wf.det ltP ltQ

theorem perm_names (h : Reordering d m f) (wf : WellFormed d) (wf' : WellFormed m)
    (lt : q < d.size)
    (there : d.equivalenceGroups[groupOf d.equivalenceGroups q]? = some group)
    (there' : m.equivalenceGroups[groupOf m.equivalenceGroups (f q)]? = some other) :
    (group.map d.idOf).Perm (other.map m.idOf) := by
  have inside := h.renumbering.inside q lt
  obtain ⟨group₁, found, mem_group⟩ := exists_equivalenceGroup wf lt
  obtain rfl := Option.some.inj (there.symm.trans found)
  obtain ⟨other₁, found', mem_other⟩ := exists_equivalenceGroup wf' inside
  obtain rfl := Option.some.inj (there'.symm.trans found')
  have nodup := nodup_names wf (sound_equivalenceGroups wf).parts (List.mem_of_getElem? there)
  have nodup' := nodup_names wf' (sound_equivalenceGroups wf').parts (List.mem_of_getElem? there')
  apply (List.perm_ext_iff_of_nodup nodup nodup').2
  intro id
  simp only [List.mem_map, mem_group, mem_other, and_assoc]
  rw [h.exists_state_iff]
  apply exists_congr
  intro p
  apply and_congr_right
  intro ltP
  rw [h.indistinguishable_iff wf ltP lt, h.named p ltP]

theorem exists_group (h : Reordering d m f) (wf : WellFormed d) (wf' : WellFormed m)
    (mem : group ∈ d.equivalenceGroups) :
    ∃ other ∈ m.equivalenceGroups, (group.map d.idOf).Perm (other.map m.idOf) := by
  have parts := (sound_equivalenceGroups wf).parts
  obtain ⟨i, there⟩ := List.mem_iff_getElem?.1 mem
  obtain ⟨q, memQ⟩ := List.exists_mem_of_ne_nil group (parts.nonempty group mem)
  have lt := parts.mem there memQ
  rw [← parts.groupOf_eq there memQ] at there
  obtain ⟨other, there', -⟩ := exists_equivalenceGroup wf' (h.renumbering.inside q lt)
  exact ⟨other, List.mem_of_getElem? there', h.perm_names wf wf' lt there there'⟩

/-! ## Merged states -/

theorem mergedState_eq_iff (h : Reordering d m f) (wf : WellFormed d) (wf' : WellFormed m)
    (ltP : p < d.size) (ltQ : q < d.size) :
    m.mergedState (f p) = m.mergedState (f q) ↔ d.mergedState p = d.mergedState q := by
  rw [Dfa.mergedState_eq_iff wf' (h.renumbering.inside p ltP) (h.renumbering.inside q ltQ),
    Dfa.mergedState_eq_iff wf ltP ltQ, h.indistinguishable_iff wf ltP ltQ]

/-- States that become one become one in the other automaton, which gives a map
between the results. -/
theorem exists_merged_map (h : Reordering d m f) (wf : WellFormed d) (wf' : WellFormed m) :
    ∃ g : Nat → Nat, ∀ q < d.size, g (d.mergedState q) = m.mergedState (f q) := by
  have images : ∀ i, ∃ j, ∀ q < d.size, d.mergedState q = i → m.mergedState (f q) = j := by
    intro i
    by_cases merged : ∃ p < d.size, d.mergedState p = i
    · obtain ⟨p, ltP, eq⟩ := merged
      refine ⟨m.mergedState (f p), fun q ltQ eq' => ?_⟩
      exact (h.mergedState_eq_iff wf wf' ltQ ltP).2 (eq'.trans eq.symm)
    · -- What no state becomes may go anywhere.
      exact ⟨0, fun q ltQ eq => absurd ⟨q, ltQ, eq⟩ merged⟩
  choose g image using images
  exact ⟨g, fun q lt => (image _ q lt rfl).symm⟩

/-- A map between the results that goes with the renumbering is a renumbering of
them. -/
theorem renumbering_merged (h : Reordering d m f) (wf : WellFormed d) (wf' : WellFormed m)
    (ok : d.minimize = .ok d') (ok' : m.minimize = .ok m') {g : Nat → Nat}
    (image : ∀ q < d.size, g (d.mergedState q) = m.mergedState (f q)) : Renumbering d' m' g := by
  have keeps : Morphism d d' d.mergedState := (merged_minimize wf ok).morphism
  have keeps' : Morphism m m' m.mergedState := (merged_minimize wf' ok').morphism
  have inside := h.renumbering.inside
  apply Morphism.renumbering
  · constructor
    · have start := image 0 wf.size_pos
      rwa [keeps.start, h.renumbering.start, keeps'.start] at start
    · intro i lt
      obtain ⟨q, ltQ, rfl⟩ := exists_mergedState wf ok lt
      rw [image q ltQ, keeps'.accepting _ (inside q ltQ), h.renumbering.accepting q ltQ,
        keeps.accepting q ltQ]
    · intro i lt c
      obtain ⟨q, ltQ, rfl⟩ := exists_mergedState wf ok lt
      rw [image q ltQ, keeps'.successor _ (inside q ltQ), h.renumbering.successor q ltQ,
        keeps.successor q ltQ]
      cases step : d.successor q c with
      | none => rfl
      | some p => simp only [Option.map_some, image p (wf.det.successor_lt step)]
  · intro i lt
    obtain ⟨q, ltQ, rfl⟩ := exists_mergedState wf ok lt
    rw [image q ltQ]
    exact mergedState_lt wf' ok' (inside q ltQ)
  · intro i ltI j ltJ eq
    obtain ⟨p, ltP, rfl⟩ := exists_mergedState wf ok ltI
    obtain ⟨q, ltQ, rfl⟩ := exists_mergedState wf ok ltJ
    rw [image p ltP, image q ltQ] at eq
    exact (h.mergedState_eq_iff wf wf' ltP ltQ).1 eq
  · intro j lt
    obtain ⟨i, ltI, rfl⟩ := exists_mergedState wf' ok' lt
    obtain ⟨q, ltQ, rfl⟩ := h.renumbering.exists_state ltI
    exact ⟨d.mergedState q, mergedState_lt wf ok ltQ, image q ltQ⟩

theorem mergedNames_eq (h : Reordering d m f) (wf : WellFormed d) (wf' : WellFormed m)
    (lt : q < d.size) : m.mergedNames (m.mergedState (f q)) = d.mergedNames (d.mergedState q) := by
  ext id
  rw [mem_mergedNames, mem_mergedNames, h.exists_state_iff]
  apply exists_congr
  intro p
  apply and_congr_right
  intro ltP
  rw [h.mergedState_eq_iff wf wf' ltP lt, h.named p ltP]

end Reordering

/-! ## Names without commas -/

theorem joinedName_singleton (d : Dfa) (q : Nat) : d.joinedName [q] = d.idOf q := by
  simp [joinedName]

theorem splitOn_joinedName (free : ∀ q ∈ group, ',' ∉ (d.idOf q).toList) (nonempty : group ≠ []) :
    (d.joinedName group).toList.splitOn ',' =
      ((group.map d.idOf).mergeSort (· ≤ ·)).map String.toList := by
  have comma : ",".toList = [','] := rfl
  rw [joinedName, String.toList_intercalate, comma]
  apply List.splitOn_intercalate
  · intro text mem
    simp only [List.mem_map, List.mem_mergeSort] at mem
    obtain ⟨id, ⟨q, memQ, rfl⟩, rfl⟩ := mem
    exact free q memQ
  · intro empty
    apply nonempty
    have length := congrArg List.length empty
    simpa using length

theorem perm_of_joinedName_eq (free : ∀ q ∈ group, ',' ∉ (d.idOf q).toList) (nonempty : group ≠ [])
    (free' : ∀ q ∈ other, ',' ∉ (d.idOf q).toList) (some' : other ≠ [])
    (same : d.joinedName group = d.joinedName other) :
    (group.map d.idOf).Perm (other.map d.idOf) := by
  have parts := splitOn_joinedName free nonempty
  rw [same, splitOn_joinedName free' some'] at parts
  have injective : Function.Injective String.toList := fun _ _ => String.toList_inj.1
  exact (perm_of_mergeSort_eq (injective.list_map parts)).symm

theorem freeName_of_notMem {tries : Nat} (free : name ∉ taken) :
    freeName taken tries name = name := by
  cases tries with
  | zero => rfl
  | succ tries => rw [freeName, if_neg free]

theorem namesFrom_eq_map (different : (groups.map d.joinedName).Nodup)
    (free : ∀ group ∈ groups, (∀ q, group ≠ [q]) → d.joinedName group ∉ taken) :
    d.namesFrom taken groups = groups.map d.joinedName := by
  fun_induction namesFrom d taken groups with
  | case1 => rfl
  | case2 taken q rest ih =>
      rw [List.map_cons] at different
      rw [List.map_cons, joinedName_singleton,
        ih (List.nodup_cons.1 different).2 (List.forall_mem_cons.1 free).2]
  | case3 taken group rest several new ih =>
      rw [List.map_cons] at different
      obtain ⟨first, others⟩ := List.forall_mem_cons.1 free
      obtain ⟨own, distinct⟩ := List.nodup_cons.1 different
      have unmarked : new = d.joinedName group := freeName_of_notMem (first several)
      rw [List.map_cons, ih distinct, unmarked]
      intro later mem several' inUse
      rw [unmarked] at inUse
      rcases List.mem_cons.1 inUse with same | old
      · exact own (same ▸ List.mem_map_of_mem mem)
      · exact others later mem several' old

/-- Without commas in names every group is named after its members. -/
theorem groupNames_eq_map (wf : WellFormed d) (parts : Partitions d groups)
    (free : ∀ q < d.size, ',' ∉ (d.idOf q).toList) :
    d.groupNames groups = groups.map d.joinedName := by
  have freeIn : ∀ {group}, group ∈ groups → ∀ q ∈ group, ',' ∉ (d.idOf q).toList :=
    fun mem q memQ => free q (parts.lt_of_mem mem memQ)
  apply namesFrom_eq_map
  · apply List.pairwise_map.2
    apply (List.nodup_flatten.1 parts.nodup).2.imp_of_mem
    intro group other mem mem' apart same
    have names := perm_of_joinedName_eq (freeIn mem) (parts.nonempty group mem) (freeIn mem')
      (parts.nonempty other mem') same
    obtain ⟨q, memQ⟩ := List.exists_mem_of_ne_nil group (parts.nonempty group mem)
    obtain ⟨p, memP, named⟩ := List.mem_map.1 (names.mem_iff.1 (List.mem_map_of_mem memQ))
    rw [wf.idOf_inj (parts.lt_of_mem mem' memP) (parts.lt_of_mem mem memQ) named] at memP
    exact apart memQ memP
  · intro group mem several taken
    have many : 1 < group.length := by
      have pos := List.length_pos_of_ne_nil (parts.nonempty group mem)
      have more : group.length ≠ 1 := fun one => (List.length_eq_one_iff.1 one).elim several
      omega
    -- Only names of single states are taken, and those have no comma.
    obtain ⟨alone, kept, named⟩ := List.mem_flatMap.1 taken
    obtain ⟨q, memQ, same⟩ := List.mem_map.1 named
    apply freeIn (List.mem_of_mem_filter kept) q memQ
    rw [same]
    exact comma_mem_joinedName many

theorem idOf_mergedState (wf : WellFormed d) (ok : d.minimize = .ok d')
    (free : ∀ q < d.size, ',' ∉ (d.idOf q).toList) (lt : q < d.size)
    (there : d.equivalenceGroups[groupOf d.equivalenceGroups q]? = some group) :
    d'.idOf (d.mergedState q) = d.joinedName group := by
  have parts := (sound_equivalenceGroups wf).parts
  rw [idOf_eq, ids_mergedState wf ok lt, groupNames_eq_map wf parts free, List.getElem?_map, there]
  rfl

theorem Reordering.merged (h : Reordering d m f) (wf : WellFormed d) (wf' : WellFormed m)
    (ok : d.minimize = .ok d') (ok' : m.minimize = .ok m') {g : Nat → Nat}
    (image : ∀ q < d.size, g (d.mergedState q) = m.mergedState (f q))
    (free : ∀ q < d.size, ',' ∉ (d.idOf q).toList) : Reordering d' m' g where
  renumbering := h.renumbering_merged wf wf' ok ok' image
  named i lt := by
    obtain ⟨q, ltQ, rfl⟩ := exists_mergedState wf ok lt
    have inside := h.renumbering.inside q ltQ
    have free' : ∀ j < m.size, ',' ∉ (m.idOf j).toList := by
      intro j ltJ
      obtain ⟨p, ltP, rfl⟩ := h.renumbering.exists_state ltJ
      rw [h.named p ltP]
      exact free p ltP
    obtain ⟨group, there, -⟩ := exists_equivalenceGroup wf ltQ
    obtain ⟨other, there', -⟩ := exists_equivalenceGroup wf' inside
    rw [image q ltQ, idOf_mergedState wf' ok' free' inside there',
      idOf_mergedState wf ok free ltQ there, joinedName, joinedName]
    have names := h.perm_names wf wf' ltQ there there'
    rw [mergeSort_eq_of_perm Function.injective_id (by simp) names.symm]
  alphabet := by
    rw [(merged_minimize wf' ok').alphabet, (merged_minimize wf ok).alphabet, h.alphabet]

/-- In whatever order the parts of an automaton were added, minimizing merges the
same names, and the results are the same up to numbering.  If no name has a comma
they are written alike. -/
theorem minimize_ignores_order (built : Built d) (built' : Built m)
    (same : d.document = m.document) :
    ∃ d' m', d.minimize = .ok d' ∧ m.minimize = .ok m' ∧
      (∀ group ∈ d.equivalenceGroups, ∃ other ∈ m.equivalenceGroups,
        (group.map d.idOf).Perm (other.map m.idOf)) ∧
      (∀ other ∈ m.equivalenceGroups, ∃ group ∈ d.equivalenceGroups,
        (group.map d.idOf).Perm (other.map m.idOf)) ∧
      (∃ g, Renumbering d' m' g ∧ ∀ i < d'.size, m.mergedNames (g i) = d.mergedNames i) ∧
      ((∀ id ∈ d.ids, ',' ∉ id.toList) → d'.document = m'.document) := by
  have wf := built.wellFormed
  have wf' := built'.wellFormed
  obtain ⟨f, h⟩ := (document_eq_iff_exists_reordering wf wf').1 same
  obtain ⟨f', h'⟩ := (document_eq_iff_exists_reordering wf' wf).1 same.symm
  obtain ⟨d', ok, merged⟩ := exists_minimize wf
  obtain ⟨m', ok', merged'⟩ := exists_minimize wf'
  obtain ⟨g, image⟩ := h.exists_merged_map wf wf'
  refine ⟨d', m', ok, ok', fun group => h.exists_group wf wf', ?_, ⟨g, ?_, ?_⟩, ?_⟩
  · intro other mem
    obtain ⟨group, mem', names⟩ := h'.exists_group wf' wf mem
    exact ⟨group, mem', names.symm⟩
  · exact h.renumbering_merged wf wf' ok ok' image
  · intro i lt
    obtain ⟨q, ltQ, rfl⟩ := exists_mergedState wf ok lt
    rw [image q ltQ]
    exact h.mergedNames_eq wf wf' ltQ
  · intro free
    have states : ∀ q < d.size, ',' ∉ (d.idOf q).toList := by
      intro q lt
      exact free _ (mem_ids.2 ⟨q, lt, rfl⟩)
    apply (document_eq_iff_exists_reordering merged.wellFormed merged'.wellFormed).2
    exact ⟨g, h.merged wf wf' ok ok' image states⟩

def reversedFork : Dfa where
  states := [⟨"s", false⟩, ⟨"q", true⟩, ⟨"p", true⟩]
  edges := [⟨0, 'a', 2⟩, ⟨0, 'b', 1⟩]
  alphabet := ['a', 'b']

theorem built_reversedFork : Built reversedFork := by
  have named := ((Built.new [] "s").addState "q").addState "p"
  have states := (named.setAccepting (q := 1) (by decide)).setAccepting (q := 2) (by decide)
  have first := states.addTransition (e := ⟨0, 'b', 1⟩) (by decide) (by decide) rfl
  exact first.addTransition (e := ⟨0, 'a', 2⟩) (by decide) (by decide) rfl

theorem minimize_ignores_order_fork :
    Built fork ∧ Built reversedFork ∧ fork.document = reversedFork.document ∧
      ∃ d m, fork.minimize = .ok d ∧ reversedFork.minimize = .ok m ∧ d.ids = ["s", "p,q"] ∧
        (∃ g, Renumbering d m g ∧
          ∀ i < d.size, reversedFork.mergedNames (g i) = fork.mergedNames i) ∧
        d.document = m.document := by
  have same : fork.document = reversedFork.document := by cbv
  obtain ⟨d, m, ok, ok', -, -, renumbered, written⟩ :=
    minimize_ignores_order built_fork built_reversedFork same
  have names : fork.minimize.map ids = .ok ["s", "p,q"] := by cbv
  rw [ok] at names
  exact ⟨built_fork, built_reversedFork, same, d, m, ok, ok', Except.ok.inj names, renumbered,
    written (by decide)⟩

end RegularLanguages.Dfa
