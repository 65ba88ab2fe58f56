import RegularLanguages.Dfa.Spec
import RegularLanguages.Proofs.Dfa.Merge
import RegularLanguages.Proofs.Dfa.Table
import RegularLanguages.Proofs.Reach

/-! # Everything that the operations build is well-formed

One lemma for each way of building; `Built.wellFormed` puts them together. -/
set_option autoImplicit false
namespace RegularLanguages.Dfa

variable {d m : Dfa} {p q : Nat}

/-! ## Pruning -/

theorem mem_successors : p ∈ d.successors q ↔ ∃ c, ⟨q, c, p⟩ ∈ d.edges := by
  simp only [successors, List.mem_map, List.mem_filter, beq_iff_eq]
  constructor
  · rintro ⟨e, ⟨edge, rfl⟩, rfl⟩
    exact ⟨e.symbol, edge⟩
  · rintro ⟨c, edge⟩
    exact ⟨⟨q, c, p⟩, ⟨edge, rfl⟩, rfl⟩

theorem WellFormed.length_successors_le (wf : WellFormed d) (q : Nat) :
    (d.successors q).length ≤ d.alphabet.length := by
  have nodup : ((d.edges.filter (·.source == q)).map (·.symbol)).Nodup := by
    rw [List.Nodup, List.pairwise_map]
    refine (wf.pairwise_edges.filter _).imp_of_mem fun {e f} mem mem' differ => ?_
    have source : e.source = q := beq_iff_eq.1 (List.mem_filter.1 mem).2
    have source' : f.source = q := beq_iff_eq.1 (List.mem_filter.1 mem').2
    exact differ (source.trans source'.symm)
  have known : (d.edges.filter (·.source == q)).map (·.symbol) ⊆ d.alphabet := by
    intro c mem
    obtain ⟨e, edge, rfl⟩ := List.mem_map.1 mem
    exact wf.symbols e (List.mem_filter.1 edge).1
  have counted := (nodup.subperm known).length_le
  rw [List.length_map] at counted
  rwa [successors, List.length_map]

theorem WellFormed.bounded (wf : WellFormed d) : Reach.Bounded d.successors d.size := by
  intro q p mem
  obtain ⟨c, edge⟩ := mem_successors.1 mem
  exact (wf.ends _ edge).2

theorem mem_reachable (wf : WellFormed d) :
    q ∈ d.reachable ↔ Reach.Leads d.successors 0 q := by
  have inside : ∀ p ∈ [0], p < d.size := fun p mem => List.mem_singleton.1 mem ▸ wf.size_pos
  rw [reachable, Reach.mem_reach wf.bounded inside]
  simp

theorem zero_mem_reachable (wf : WellFormed d) : 0 ∈ d.reachable :=
  (mem_reachable wf).2 Relation.ReflTransGen.refl

theorem reachable_of_edge (wf : WellFormed d) {e : Edge} (edge : e ∈ d.edges)
    (source : e.source ∈ d.reachable) : e.target ∈ d.reachable :=
  (mem_reachable wf).2
    (((mem_reachable wf).1 source).tail (mem_successors.2 ⟨e.symbol, edge⟩))

theorem lt_of_mem_reachable (wf : WellFormed d) (mem : q ∈ d.reachable) : q < d.size := by
  rcases ((mem_reachable wf).1 mem).cases_tail with start | ⟨p, -, step⟩
  · exact start ▸ wf.size_pos
  · exact wf.bounded p q step

theorem increasing_reachable (d : Dfa) : OrderedSet.Increasing d.reachable :=
  Reach.increasing_reach _ _ _

def reachableStates (d : Dfa) : Dfa := ⟨d.reachable.filterMap (d.states[·]?), [], d.alphabet⟩

theorem map_some_filterMap {kept : List Nat} (inside : ∀ q ∈ kept, q < d.size) :
    (kept.filterMap (d.states[·]?)).map some = kept.map (d.states[·]?) := by
  induction kept with
  | nil => rfl
  | cons q rest ih =>
      obtain ⟨lt, others⟩ := List.forall_mem_cons.1 inside
      rw [List.filterMap_cons, List.map_cons, List.getElem?_eq_getElem lt]
      simp only [List.map_cons, ih others]

theorem ids_filterMap {kept : List Nat} (inside : ∀ q ∈ kept, q < d.size) :
    (kept.filterMap (d.states[·]?)).map (·.id) = kept.map d.idOf := by
  have named := congrArg (List.map fun state => (state.map (·.id)).getD "")
    (map_some_filterMap inside)
  rw [List.map_map, List.map_map] at named
  exact named

theorem ids_reachableStates (wf : WellFormed d) :
    d.reachableStates.ids = d.reachable.map d.idOf :=
  ids_filterMap fun _ mem => lt_of_mem_reachable wf mem

theorem size_reachableStates (wf : WellFormed d) :
    d.reachableStates.size = d.reachable.length := by
  rw [← length_ids, ids_reachableStates wf, List.length_map]

theorem wellFormed_reachableStates (wf : WellFormed d) : WellFormed d.reachableStates where
  size_pos := by
    rw [size_reachableStates wf]
    exact List.length_pos_of_mem (zero_mem_reachable wf)
  ids_nodup := by
    have nodup := (increasing_reachable d).nodup
    have different : (d.reachable.map d.idOf).Nodup := by
      refine List.Nodup.map_on (fun p memP q memQ same => ?_) nodup
      exact wf.idOf_inj (lt_of_mem_reachable wf memP) (lt_of_mem_reachable wf memQ) same
    rwa [← ids_reachableStates wf] at different
  edges_nodup := List.nodup_nil
  ends e edge := absurd edge List.not_mem_nil
  deterministic e edge := absurd edge List.not_mem_nil
  increasing := wf.increasing
  symbols e edge := absurd edge List.not_mem_nil

def reachableEdges (d : Dfa) : List Edge :=
  (d.transitions.filter fun e => e.source ∈ d.reachable).map fun e =>
    ⟨d.reachable.idxOf e.source, e.symbol, d.reachable.idxOf e.target⟩

theorem ends_reachableEdges (wf : WellFormed d) : ∀ e ∈ d.reachableEdges,
    e.source < d.reachableStates.size ∧ e.target < d.reachableStates.size := by
  intro e mem
  simp only [reachableEdges, List.mem_map, List.mem_filter, transitions, List.mem_reverse,
    decide_eq_true_eq] at mem
  obtain ⟨f, ⟨edge, source⟩, rfl⟩ := mem
  rw [size_reachableStates wf]
  exact ⟨List.idxOf_lt_length_of_mem source,
    List.idxOf_lt_length_of_mem (reachable_of_edge wf edge source)⟩

theorem wellFormed_prune (wf : WellFormed d) (ok : d.prune = .ok m) : WellFormed m := by
  rw [prune] at ok
  by_cases all : d.reachable.length = d.size
  · rw [if_pos all] at ok
    exact Except.ok.inj ok ▸ wf
  · rw [if_neg all] at ok
    exact (extended_addTransitions (wellFormed_reachableStates wf) (ends_reachableEdges wf)
      ok).wellFormed

/-! ## Tables and documents -/

theorem wellFormed_ofTable {t : Table} (ok : ofTable t = .ok d) : WellFormed d :=
  (readFrom_ofTable ok).2.wellFormed

theorem WellFormed.addSymbolText (wf : WellFormed d) (text : String) :
    WellFormed (d.addSymbolText text) := by
  rw [Dfa.addSymbolText]
  split
  next c _ => exact wf.addSymbol c
  next => exact wf

theorem WellFormed.addSymbolTexts (wf : WellFormed d) (texts : List String) :
    WellFormed (texts.foldl Dfa.addSymbolText d) := by
  induction texts generalizing d with
  | nil => exact wf
  | cons text rest ih => exact ih (wf.addSymbolText text)

theorem wellFormed_ofDocument {doc : Document} (ok : ofDocument doc = .ok d) : WellFormed d := by
  rw [ofDocument] at ok
  split at ok
  next => cases ok
  next read =>
    obtain rfl := Except.ok.inj ok
    exact (wellFormed_ofTable read).addSymbolTexts doc.alphabet

/-! ## All operations -/

theorem Built.wellFormed (built : Built d) : WellFormed d := by
  induction built with
  | new alphabet start => exact wellFormed_new alphabet start
  | addState id _ wf => exact wf.addState id
  | setAccepting _ _ wf => exact wf.setAccepting _
  | addSymbol c _ wf => exact wf.addSymbol c
  | addTransition _ source target ok wf =>
      exact (extended_addTransition wf source target ok).wellFormed
  | prune _ ok wf => exact wellFormed_prune wf ok
  | minimize _ ok wf => exact (merged_minimize wf ok).wellFormed
  | ofTable ok => exact wellFormed_ofTable ok
  | ofDocument ok => exact wellFormed_ofDocument ok

end RegularLanguages.Dfa
