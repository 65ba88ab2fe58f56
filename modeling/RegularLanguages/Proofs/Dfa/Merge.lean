import RegularLanguages.Dfa.Spec
import RegularLanguages.Proofs.Dfa.Naming

/-! # Merging the groups of a settled partition

The members of a group of a settled partition have their transitions on the same
characters into the same groups, so the transitions of the merged automaton do
not conflict.  The map from states to the states of their groups keeps the
start, acceptance and transitions (`Morphism`), and with them runs and the
accepted words. -/
set_option autoImplicit false
namespace RegularLanguages.Dfa

variable {d m : Dfa} {f : Nat → Nat} {groups : List (List Nat)} {p q i : Nat} {c : Char}

/-! ## Maps that keep runs -/

/-- A map between the states of two automata that keeps the start, acceptance
and transitions. -/
structure Morphism (d m : Dfa) (f : Nat → Nat) : Prop where
  start : f 0 = 0
  accepting : ∀ q < d.size, m.isAccepting (f q) = d.isAccepting q
  successor : ∀ q < d.size, ∀ c, m.successor (f q) c = (d.successor q c).map f

namespace Morphism

theorem run_eq (h : Morphism d m f) (det : Deterministic d) (lt : q < d.size) (word : List Char) :
    m.run (f q) word = (d.run q word).map f := by
  induction word generalizing q with
  | nil => rfl
  | cons c rest ih =>
      rw [run_cons, run_cons, h.successor q lt]
      cases step : d.successor q c with
      | none => rfl
      | some next =>
          rw [Option.map_some, Option.bind_some, Option.bind_some]
          exact ih (det.successor_lt step)

theorem acceptsFrom_eq (h : Morphism d m f) (det : Deterministic d) (lt : q < d.size)
    (word : List Char) : m.acceptsFrom (f q) word = d.acceptsFrom q word := by
  rw [acceptsFrom, acceptsFrom, h.run_eq det lt]
  cases run : d.run q word with
  | none => rfl
  | some p => exact h.accepting p (det.run_lt lt run)

theorem accepts_eq (h : Morphism d m f) (det : Deterministic d) (pos : 0 < d.size)
    (word : List Char) : m.accepts word = d.accepts word := by
  have same := h.acceptsFrom_eq det pos word
  rwa [h.start] at same

end Morphism

/-! ## The states of the groups of states -/

def stateOf (d : Dfa) (groups : List (List Nat)) (q : Nat) : Nat :=
  groupState (d.groupNames groups) (d.groupStates groups) (groupOf groups q)

theorem stateOf_lt (wf : WellFormed d) (parts : Partitions d groups) (lt : q < d.size) :
    d.stateOf groups q < groups.length := groupState_lt wf parts (parts.groupOf_lt lt)

theorem stateOf_eq_iff (wf : WellFormed d) (parts : Partitions d groups) (ltP : p < d.size)
    (ltQ : q < d.size) :
    d.stateOf groups p = d.stateOf groups q ↔ groupOf groups p = groupOf groups q :=
  ⟨groupState_inj wf parts (parts.groupOf_lt ltP) (parts.groupOf_lt ltQ),
    congrArg (groupState (d.groupNames groups) (d.groupStates groups))⟩

theorem exists_stateOf (wf : WellFormed d) (parts : Partitions d groups)
    (lt : i < groups.length) : ∃ q < d.size, d.stateOf groups q = i := by
  obtain ⟨g, ltG, rfl⟩ := exists_groupState wf parts lt
  have there := List.getElem?_eq_getElem ltG
  obtain ⟨q, mem⟩ := List.exists_mem_of_ne_nil _ (parts.nonempty _ (List.getElem_mem ltG))
  refine ⟨q, parts.mem there mem, ?_⟩
  rw [stateOf, parts.groupOf_eq there mem]

/-- States that become the same state have transitions into states that become
the same. -/
theorem successor_stateOf (wf : WellFormed d) (parts : Partitions d groups)
    (settled : Settled d groups) (ltP : p < d.size) (ltQ : q < d.size)
    (same : d.stateOf groups p = d.stateOf groups q) (c : Char) :
    (d.successor p c).map (d.stateOf groups) = (d.successor q c).map (d.stateOf groups) := by
  have together := (parts.groupOf_eq_iff ltP ltQ).1 ((stateOf_eq_iff wf parts ltP ltQ).1 same)
  have leads := (signature_eq_iff wf).1 (settled p q together) c
  have split : d.stateOf groups =
      groupState (d.groupNames groups) (d.groupStates groups) ∘ groupOf groups := rfl
  rw [split, ← Option.map_map, ← Option.map_map, leads]

/-! ## The merged automaton -/

def markedStates (d : Dfa) (groups : List (List Nat)) : Dfa :=
  ((List.range groups.length).filter fun g => (groups[g]?.getD []).any d.isAccepting).foldl
    (fun m g => m.setAccepting (groupState (d.groupNames groups) (d.groupStates groups) g))
    (d.groupStates groups)

def mergedEdges (d : Dfa) (groups : List (List Nat)) : List Edge :=
  d.transitions.map fun e => ⟨d.stateOf groups e.source, e.symbol, d.stateOf groups e.target⟩

theorem mem_mergedEdges {e : Edge} : e ∈ d.mergedEdges groups ↔
    ∃ f ∈ d.edges, d.stateOf groups f.source = e.source ∧ f.symbol = e.symbol ∧
      d.stateOf groups f.target = e.target := by
  simp only [mergedEdges, transitions, List.mem_map, List.mem_reverse]
  constructor
  · rintro ⟨f, mem, rfl⟩
    exact ⟨f, mem, rfl, rfl, rfl⟩
  · rintro ⟨f, mem, sources, symbols, targets⟩
    exact ⟨f, mem, by rw [sources, symbols, targets]⟩

theorem mem_mergedEdges_iff (wf : WellFormed d) (parts : Partitions d groups)
    (settled : Settled d groups) (lt : q < d.size) :
    ⟨d.stateOf groups q, c, i⟩ ∈ d.mergedEdges groups ↔
      (d.successor q c).map (d.stateOf groups) = some i := by
  rw [mem_mergedEdges]
  constructor
  · rintro ⟨f, edge, sources, rfl, rfl⟩
    rw [← successor_stateOf wf parts settled (wf.ends f edge).1 lt sources,
      wf.det.successor_eq_some_iff.2 edge]
    rfl
  · intro leads
    obtain ⟨p, step, rfl⟩ := Option.map_eq_some_iff.1 leads
    exact ⟨⟨q, c, p⟩, mem_edges_of_successor step, rfl, rfl, rfl⟩

theorem markedStates_eq (d : Dfa) (groups : List (List Nat)) :
    d.markedStates groups =
      (((List.range groups.length).filter fun g => (groups[g]?.getD []).any d.isAccepting).map
        (groupState (d.groupNames groups) (d.groupStates groups))).foldl setAccepting
          (d.groupStates groups) := by
  rw [List.foldl_map]
  rfl

theorem wellFormed_markedStates (d : Dfa) (groups : List (List Nat)) :
    WellFormed (d.markedStates groups) :=
  markedStates_eq d groups ▸ (wellFormed_groupStates d groups).setAcceptings _

theorem size_markedStates (wf : WellFormed d) (parts : Partitions d groups) :
    (d.markedStates groups).size = groups.length := by
  rw [← length_ids, markedStates_eq, (foldl_setAccepting _ _).1, length_ids,
    size_groupStates wf parts]

theorem edges_markedStates (d : Dfa) (groups : List (List Nat)) :
    (d.markedStates groups).edges = [] := by
  rw [markedStates_eq, (foldl_setAccepting _ _).2.1]
  exact (foldl_addState _ _).2.1

theorem alphabet_markedStates (wf : WellFormed d) (groups : List (List Nat)) :
    (d.markedStates groups).alphabet = d.alphabet := by
  rw [markedStates_eq, (foldl_setAccepting _ _).2.2.1]
  exact ((foldl_addState _ _).2.2.1).trans wf.increasing.ofList_eq

theorem isAccepting_groupStates (d : Dfa) (groups : List (List Nat)) (i : Nat) :
    (d.groupStates groups).isAccepting i = false := by
  rw [groupStates, namedStates, (foldl_addState _ _).2.2.2]
  cases i with
  | zero => rfl
  | succ i => rfl

theorem isAccepting_markedStates (wf : WellFormed d) (sound : Sound d groups) (lt : q < d.size) :
    (d.markedStates groups).isAccepting (d.stateOf groups q) = d.isAccepting q := by
  have parts := sound.parts
  obtain ⟨group, there, mem⟩ := parts.exists_group lt
  have accepts : group.any d.isAccepting = d.isAccepting q := by
    rw [Bool.eq_iff_iff, List.any_eq_true]
    constructor
    · rintro ⟨p, memP, accepting⟩
      rwa [← sound.accepting p q ⟨group, List.mem_of_getElem? there, memP, mem⟩]
    · exact fun accepting => ⟨q, mem, accepting⟩
  rw [Bool.eq_iff_iff, markedStates_eq, (foldl_setAccepting _ _).2.2.2, isAccepting_groupStates,
    size_groupStates wf parts, List.mem_map, ← accepts]
  constructor
  · rintro (never | ⟨⟨g, marked, same⟩, -⟩)
    · cases never
    · obtain ⟨ltG, accepting⟩ := List.mem_filter.1 marked
      obtain rfl := groupState_inj wf parts (List.mem_range.1 ltG) (parts.groupOf_lt lt) same
      rwa [there] at accepting
  · intro accepting
    refine .inr ⟨⟨groupOf groups q, List.mem_filter.2 ⟨?_, ?_⟩, rfl⟩, stateOf_lt wf parts lt⟩
    · exact List.mem_range.2 (parts.groupOf_lt lt)
    · rwa [there]

theorem ends_mergedEdges (wf : WellFormed d) (parts : Partitions d groups) :
    ∀ e ∈ d.mergedEdges groups,
      e.source < (d.markedStates groups).size ∧ e.target < (d.markedStates groups).size := by
  intro e mem
  obtain ⟨f, edge, sources, -, targets⟩ := mem_mergedEdges.1 mem
  rw [size_markedStates wf parts, ← sources, ← targets]
  exact ⟨stateOf_lt wf parts (wf.ends f edge).1, stateOf_lt wf parts (wf.ends f edge).2⟩

structure Merged (d : Dfa) (groups : List (List Nat)) (m : Dfa) : Prop where
  wellFormed : WellFormed m
  size : m.size = groups.length
  alphabet : m.alphabet = d.alphabet
  morphism : Morphism d m (d.stateOf groups)

theorem exists_merge (wf : WellFormed d) (sound : Sound d groups) (settled : Settled d groups) :
    ∃ m, d.merge groups = .ok m ∧ Merged d groups m := by
  have parts := sound.parts
  have ends := ends_mergedEdges wf parts
  have agree : ∀ e ∈ d.mergedEdges groups, ∀ f ∈ d.mergedEdges groups,
      e.source = f.source → e.symbol = f.symbol → e.target = f.target := by
    intro e mem f mem' sources symbols
    obtain ⟨g, edge, source, -, -⟩ := mem_mergedEdges.1 mem
    have lt := (wf.ends g edge).1
    have first : ⟨d.stateOf groups g.source, e.symbol, e.target⟩ ∈ d.mergedEdges groups :=
      source ▸ mem
    have second : ⟨d.stateOf groups g.source, e.symbol, f.target⟩ ∈ d.mergedEdges groups := by
      rw [source, sources, symbols]
      exact mem'
    rw [mem_mergedEdges_iff wf parts settled lt] at first second
    exact Option.some.inj (first.symm.trans second)
  have noEdges := edges_markedStates d groups
  obtain ⟨m, ok⟩ := exists_addTransitions (wellFormed_markedStates d groups) ends
    (fun e mem f known => agree e mem f
      (known.resolve_left fun old => by rw [noEdges] at old; cases old))
  have result := extended_addTransitions (wellFormed_markedStates d groups) ends ok
  have edges : ∀ e, e ∈ m.edges ↔ e ∈ d.mergedEdges groups := by
    intro e
    rw [result.mem_edges, noEdges]
    simp
  refine ⟨m, ok, result.wellFormed, ?_, ?_, groupState_start parts wf.size_pos, ?_, ?_⟩
  · rw [size, result.states]
    exact size_markedStates wf parts
  · refine result.wellFormed.increasing.ext wf.increasing fun c => ?_
    rw [result.mem_alphabet, alphabet_markedStates wf]
    refine or_iff_left_of_imp ?_
    rintro ⟨e, mem, rfl⟩
    obtain ⟨f, edge, -, symbols, -⟩ := mem_mergedEdges.1 mem
    exact symbols ▸ wf.symbols f edge
  · intro q lt
    rw [isAccepting, result.states]
    exact isAccepting_markedStates wf sound lt
  · intro q lt c
    refine Option.ext fun i => ?_
    rw [result.wellFormed.det.successor_eq_some_iff, edges, mem_mergedEdges_iff wf parts settled lt]

/-! ## Minimization -/

/-- Minimizing succeeds and merges the groups of equivalent states. -/
theorem exists_minimize (wf : WellFormed d) :
    ∃ m, d.minimize = .ok m ∧ Merged d d.equivalenceGroups m :=
  exists_merge wf (sound_equivalenceGroups wf) (settled_equivalenceGroups wf)

theorem merged_minimize (wf : WellFormed d) (ok : d.minimize = .ok m) :
    Merged d d.equivalenceGroups m := by
  obtain ⟨m', ok', merged⟩ := exists_minimize wf
  rw [ok] at ok'
  exact Except.ok.inj ok' ▸ merged

theorem size_minimize_le (wf : WellFormed d) (ok : d.minimize = .ok m) : m.size ≤ d.size := by
  rw [(merged_minimize wf ok).size]
  exact (sound_equivalenceGroups wf).parts.length_le

theorem extended_minimize (wf : WellFormed d) (ok : d.minimize = .ok m) :
    Extended (d.markedStates d.equivalenceGroups) (d.mergedEdges d.equivalenceGroups) m := by
  have added : (d.markedStates d.equivalenceGroups).addTransitions
      (d.mergedEdges d.equivalenceGroups) = .ok m := ok
  exact extended_addTransitions (wellFormed_markedStates d _)
    (ends_mergedEdges wf (sound_equivalenceGroups wf).parts) added

theorem mem_edges_minimize {e : Edge} (wf : WellFormed d) (ok : d.minimize = .ok m) :
    e ∈ m.edges ↔ ∃ f ∈ d.edges, d.mergedState f.source = e.source ∧ f.symbol = e.symbol ∧
      d.mergedState f.target = e.target := by
  rw [(extended_minimize wf ok).mem_edges, edges_markedStates]
  exact (or_iff_right List.not_mem_nil).trans mem_mergedEdges

theorem length_transitions_minimize_le (wf : WellFormed d) (ok : d.minimize = .ok m) :
    m.transitions.length ≤ d.transitions.length := by
  have nodup := (merged_minimize wf ok).wellFormed.edges_nodup
  have images : m.edges ⊆ d.mergedEdges d.equivalenceGroups := fun _ edge =>
    mem_mergedEdges.2 ((mem_edges_minimize wf ok).1 edge)
  have fewer := (nodup.subperm images).length_le
  have edges : m.transitions.length = m.edges.length := List.length_reverse
  rwa [mergedEdges, List.length_map, ← edges] at fewer

theorem mergedState_lt (wf : WellFormed d) (ok : d.minimize = .ok m) (lt : q < d.size) :
    d.mergedState q < m.size := by
  rw [(merged_minimize wf ok).size]
  exact stateOf_lt wf (sound_equivalenceGroups wf).parts lt

/-- The states that become the same state are those that no word tells apart. -/
theorem mergedState_eq_iff (wf : WellFormed d) (ltP : p < d.size) (ltQ : q < d.size) :
    d.mergedState p = d.mergedState q ↔ Indistinguishable d p q :=
  (stateOf_eq_iff wf (sound_equivalenceGroups wf).parts ltP ltQ).trans
    (groupOf_equivalenceGroups_eq_iff wf ltP ltQ)

theorem exists_mergedState (wf : WellFormed d) (ok : d.minimize = .ok m) (lt : i < m.size) :
    ∃ q < d.size, d.mergedState q = i := by
  rw [(merged_minimize wf ok).size] at lt
  exact exists_stateOf wf (sound_equivalenceGroups wf).parts lt

theorem accepts_minimize (wf : WellFormed d) (ok : d.minimize = .ok m) (word : List Char) :
    m.accepts word = d.accepts word :=
  (merged_minimize wf ok).morphism.accepts_eq wf.det wf.size_pos word

end RegularLanguages.Dfa
