import Mathlib.Data.List.Permutation
import RegularLanguages.Proofs.Dfa.Minimize
import RegularLanguages.Proofs.Dfa.Operation

/-! # Pruning

Pruning leaves the part of an automaton that the reachable states make up
(`Restricts`).  The map that takes a state back to the one it was keeps runs, so
the words that are accepted stay the same, every state of the result is reached,
and pruning again changes nothing.

An unreachable state may be indistinguishable from a reachable one, and then
minimizing first gives the two a joint name.  Apart from names the order does not
matter: either way every state is reached, no two are indistinguishable, and the
starts match. -/
set_option autoImplicit false
namespace RegularLanguages.Dfa

variable {d m k : Dfa} {kept : List Nat} {p q i : Nat} {word : List Char}

/-! ## Reachable states -/

theorem leads_of_run (run : d.run p word = some q) : Reach.Leads d.successors p q := by
  induction word generalizing p with
  | nil =>
      obtain rfl := Option.some.inj run
      exact .refl
  | cons c rest ih =>
      rw [run_cons] at run
      obtain ⟨next, step, onward⟩ := Option.bind_eq_some_iff.1 run
      exact .head (mem_successors.2 ⟨c, mem_edges_of_successor step⟩) (ih onward)

theorem exists_run_of_leads (det : Deterministic d) (leads : Reach.Leads d.successors p q) :
    ∃ word, d.run p word = some q := by
  induction leads with
  | refl => exact ⟨[], rfl⟩
  | tail _ step ih =>
      obtain ⟨word, run⟩ := ih
      obtain ⟨c, edge⟩ := mem_successors.1 step
      refine ⟨word ++ [c], ?_⟩
      rw [run_append_singleton, run, Option.bind_some]
      exact det.successor_eq_some_iff.2 edge

theorem mem_reachable_iff_run (wf : WellFormed d) :
    q ∈ d.reachable ↔ ∃ word, d.run 0 word = some q := by
  rw [mem_reachable wf]
  constructor
  · exact exists_run_of_leads wf.det
  · exact fun ⟨_, run⟩ => leads_of_run run

theorem reachable_eq_range (wf : WellFormed d) (all : ∀ q < d.size, q ∈ d.reachable) :
    d.reachable = List.range d.size := by
  apply (increasing_reachable d).ext List.pairwise_lt_range
  intro q
  rw [List.mem_range]
  exact ⟨lt_of_mem_reachable wf, all q⟩

theorem prune_of_reached (wf : WellFormed d) (reached : Reached d) : d.prune = .ok d := by
  have all := reachable_eq_range wf fun q lt => (mem_reachable_iff_run wf).2 (reached q lt)
  rw [prune, all, List.length_range]
  exact if_pos rfl

/-! ## The part that some states make up -/

/-- `m` is what the states with the numbers `kept` make up of `d`: they keep
their order, names and acceptance and the transitions that leave them. -/
structure Restricts (d : Dfa) (kept : List Nat) (m : Dfa) : Prop where
  states : m.states.map some = kept.map (d.states[·]?)
  transitions : m.transitions = (d.transitions.filter fun e => e.source ∈ kept).map fun e =>
    ⟨kept.idxOf e.source, e.symbol, kept.idxOf e.target⟩
  alphabet : m.alphabet = d.alphabet

theorem restricts_range (wf : WellFormed d) : Restricts d (List.range d.size) d where
  states := by
    refine List.ext_getElem? fun i => ?_
    by_cases lt : i < d.size
    · have there := List.getElem?_eq_getElem lt
      simp [lt, there]
    · have beyond := List.getElem?_eq_none (Nat.le_of_not_lt lt)
      simp [lt, beyond]
  transitions := by
    have number : ∀ q < d.size, (List.range d.size).idxOf q = q := by
      intro q lt
      rw [Distinct.idxOf_eq_iff List.nodup_range (List.mem_range.2 lt)]
      exact List.getElem?_range lt
    have all : ∀ e ∈ d.transitions, e.source < d.size ∧ e.target < d.size := fun e mem =>
      wf.ends e (List.mem_reverse.1 mem)
    rw [List.filter_eq_self.2 fun e mem => by simpa using (all e mem).1]
    refine (List.map_id _).symm.trans (List.map_congr_left fun e mem => ?_)
    rw [number _ (all e mem).1, number _ (all e mem).2, id]
  alphabet := rfl

theorem pairwise_reachableEdges (wf : WellFormed d) :
    d.reachableEdges.reverse.Pairwise fun e f => e.source = f.source → e.symbol ≠ f.symbol := by
  rw [reachableEdges, ← List.map_reverse, transitions, List.filter_reverse, List.reverse_reverse,
    List.pairwise_map]
  refine (wf.pairwise_edges.filter _).imp_of_mem fun {e f} mem _ differ sources => ?_
  have source : e.source ∈ d.reachable := of_decide_eq_true (List.mem_filter.1 mem).2
  exact differ ((List.idxOf_inj source).1 sources)

theorem exists_prune (wf : WellFormed d) :
    ∃ m, d.prune = .ok m ∧ Restricts d d.reachable m := by
  by_cases all : d.reachable.length = d.size
  · have range := reachable_eq_range wf fun q => (increasing_reachable d).mem_of_length
      (fun q mem => lt_of_mem_reachable wf mem) (Nat.le_of_eq all.symm)
    refine ⟨d, if_pos all, ?_⟩
    rw [range]
    exact restricts_range wf
  · -- No edge comes twice, so each is put in front of those before it.
    have known : ∀ e ∈ d.reachableEdges, e.symbol ∈ d.alphabet := by
      intro e mem
      obtain ⟨f, kept, rfl⟩ := List.mem_map.1 mem
      exact wf.symbols f (List.mem_reverse.1 (List.mem_filter.1 kept).1)
    have fresh := pairwise_reachableEdges wf
    rw [← List.append_nil d.reachableEdges.reverse] at fresh
    have added := addTransitions_of_fresh (d := d.reachableStates) wf.increasing known fresh
    refine ⟨_, (if_neg all).trans added, ?_, ?_, rfl⟩
    · exact map_some_filterMap fun q mem => lt_of_mem_reachable wf mem
    · rw [transitions, List.reverse_append, List.reverse_reverse]
      rfl

theorem restricts_prune (wf : WellFormed d) (ok : d.prune = .ok m) :
    Restricts d d.reachable m := by
  obtain ⟨m', ok', restricts⟩ := exists_prune wf
  rw [ok] at ok'
  exact Except.ok.inj ok' ▸ restricts

/-! ## Back to the states that there were -/

def original (kept : List Nat) (i : Nat) : Nat := kept[i]?.getD 0

theorem original_idxOf (mem : q ∈ kept) : original kept (kept.idxOf q) = q := by
  rw [original, List.getElem?_idxOf mem, Option.getD_some]

theorem getElem?_original (lt : i < kept.length) : kept[i]? = some (original kept i) := by
  rw [original, List.getElem?_eq_getElem lt, Option.getD_some]

theorem original_mem (lt : i < kept.length) : original kept i ∈ kept :=
  List.mem_of_getElem? (getElem?_original lt)

theorem original_eq_iff (nodup : kept.Nodup) (lt : i < kept.length) (mem : q ∈ kept) :
    original kept i = q ↔ kept.idxOf q = i := by
  rw [Distinct.idxOf_eq_iff nodup mem, getElem?_original lt, Option.some_inj]

namespace Restricts

theorem size (h : Restricts d kept m) : m.size = kept.length := by
  simpa [Dfa.size] using congrArg List.length h.states

theorem state (h : Restricts d kept m) (lt : i < m.size) :
    m.states[i]? = d.states[original kept i]? := by
  have there := congrArg (·[i]?) h.states
  simp only [List.getElem?_map, getElem?_original (h.size ▸ lt), Option.map_some] at there
  rw [List.getElem?_eq_getElem lt, Option.map_some, Option.some_inj] at there
  rw [List.getElem?_eq_getElem lt, there]

theorem mem_edges (h : Restricts d kept m) {e : Edge} : e ∈ m.edges ↔
    ∃ f ∈ d.edges, f.source ∈ kept ∧
      kept.idxOf f.source = e.source ∧ f.symbol = e.symbol ∧ kept.idxOf f.target = e.target := by
  obtain ⟨source, symbol, target⟩ := e
  have edges : ⟨source, symbol, target⟩ ∈ m.edges ↔ ⟨source, symbol, target⟩ ∈ m.transitions :=
    List.mem_reverse.symm
  rw [edges, h.transitions]
  simp only [List.mem_map, List.mem_filter, Dfa.transitions, List.mem_reverse, decide_eq_true_eq,
    and_assoc, Edge.mk.injEq]

end Restricts

theorem original_lt (wf : WellFormed d) (ok : d.prune = .ok m) (lt : i < m.size) :
    original d.reachable i < d.size :=
  lt_of_mem_reachable wf (original_mem ((restricts_prune wf ok).size ▸ lt))

theorem morphism_prune (wf : WellFormed d) (ok : d.prune = .ok m) :
    Morphism m d (original d.reachable) := by
  have restricts := restricts_prune wf ok
  have nodup := (increasing_reachable d).nodup
  have wf' := wellFormed_prune wf ok
  refine ⟨?_, fun i lt => ?_, fun i lt c => Option.ext fun r => ?_⟩
  · obtain ⟨rest, split⟩ := reachable_eq_cons wf
    rw [split]
    rfl
  · rw [isAccepting, isAccepting, restricts.state lt]
  · have inside := restricts.size ▸ lt
    rw [wf.det.successor_eq_some_iff, Option.map_eq_some_iff]
    constructor
    · -- Where a kept state leads is kept as well, so the edge stays.
      intro edge
      have source := original_mem inside
      have target := reachable_of_edge wf edge source
      refine ⟨d.reachable.idxOf r, ?_, original_idxOf target⟩
      rw [wf'.det.successor_eq_some_iff, restricts.mem_edges]
      exact ⟨_, edge, source, (original_eq_iff nodup inside source).1 rfl, rfl, rfl⟩
    · intro found
      obtain ⟨j, step, back⟩ := found
      obtain ⟨⟨p, a, t⟩, edge, source, start, symbol, target⟩ :=
        restricts.mem_edges.1 (mem_edges_of_successor step)
      dsimp only at source start symbol target
      rw [(original_eq_iff nodup inside source).2 start, ← back, ← target, ← symbol,
        original_idxOf (reachable_of_edge wf edge source)]
      exact edge

theorem original_inj (wf : WellFormed d) (ok : d.prune = .ok m) (lt : p < m.size) (lt' : q < m.size)
    (same : original d.reachable p = original d.reachable q) : p = q := by
  have size := (restricts_prune wf ok).size
  have nodup := (increasing_reachable d).nodup
  have back := (original_eq_iff nodup (size ▸ lt) (original_mem (size ▸ lt'))).1 same
  rw [← back]
  exact (original_eq_iff nodup (size ▸ lt') (original_mem (size ▸ lt'))).1 rfl

theorem reached_prune (wf : WellFormed d) (ok : d.prune = .ok m) : Reached m := by
  intro i lt
  have keeps := morphism_prune wf ok
  have wf' := wellFormed_prune wf ok
  have mem := original_mem ((restricts_prune wf ok).size ▸ lt)
  obtain ⟨word, run⟩ := (mem_reachable_iff_run wf).1 mem
  have same := keeps.run_eq wf'.det wf'.size_pos word
  rw [keeps.start, run] at same
  obtain ⟨j, run', back⟩ := Option.map_eq_some_iff.1 same.symm
  refine ⟨word, ?_⟩
  rw [run', original_inj wf ok (wf'.det.run_lt wf'.size_pos run') lt back]

theorem reduced_prune (wf : WellFormed d) (ok : d.prune = .ok m) (reduced : Reduced d) :
    Reduced m := by
  intro p ltP q ltQ same
  have det := (wellFormed_prune wf ok).det
  have images := ((morphism_prune wf ok).indistinguishable_iff det ltP ltQ).2 same
  exact original_inj wf ok ltP ltQ
    (reduced _ (original_lt wf ok ltP) _ (original_lt wf ok ltQ) images)

/-! ## Pruning and minimizing -/

theorem isomorphic_prune_minimize {a b : Dfa} (wf : WellFormed d) (pruned : d.prune = .ok m)
    (first : m.minimize = .ok a) (minimized : d.minimize = .ok k) (second : k.prune = .ok b) :
    Isomorphic a b := by
  have wfM := wellFormed_prune wf pruned
  have mergedA := merged_minimize wfM first
  have mergedK := merged_minimize wf minimized
  have wfB := wellFormed_prune mergedK.wellFormed second
  have toA : Matched a d 0 0 :=
    (mergedA.morphism.matched_start wfM).symm.trans ((morphism_prune wf pruned).matched_start wfM)
  have toB : Matched d b 0 0 :=
    (mergedK.morphism.matched_start wf).trans
      ((morphism_prune mergedK.wellFormed second).matched_start wfB).symm
  exact isomorphic_of_matched
    (reached_minimize wfM first (reached_prune wf pruned)) (reduced_minimize wfM first)
    mergedA.wellFormed
    (reached_prune mergedK.wellFormed second)
    (reduced_prune mergedK.wellFormed second (reduced_minimize wf minimized))
    wfB (toA.trans toB)

/-- Also where it goes through the index of names, pruning succeeds, and where
every state is reachable nothing changes. -/
theorem Represents.exists_prune {x : Indexed} (h : Represents x d) (ok : d.prune = .ok m) :
    ∃ y, x.prune = .ok y ∧ Represents y m ∧
      ((∀ q < d.size, q ∈ d.reachable) → y = x) := by
  have agree := h.prune
  rw [ok] at agree
  generalize pruned : x.prune = result at agree
  cases agree with
  | ok made =>
      refine ⟨_, rfl, made, fun all => ?_⟩
      obtain rfl := h.bare
      have range := reachable_eq_range h.wellFormed all
      rw [reachable] at range
      have unchanged : x.prune = .ok x := by
        rw [Indexed.prune, h.start]
        exact if_pos (range ▸ List.length_range)
      exact Except.ok.inj (pruned.symm.trans unchanged)

/-- Pruning keeps the states that some word leads to, with their names and
acceptance and in their order, the transitions that leave them, and the
alphabet.  The same words are accepted, and pruning again or where every state is
reachable changes nothing.  It does not matter, up to the numbering and the names
of the states, whether one prunes before minimizing or afterwards. -/
theorem prune_keeps_reachable (built : Built d) :
    OrderedSet.Increasing d.reachable ∧
      (∀ q, q ∈ d.reachable ↔ ∃ word, d.run 0 word = some q) ∧
      ∃ m, d.prune = .ok m ∧ Restricts d d.reachable m ∧
        (∀ word, m.accepts word = d.accepts word) ∧
        m.prune = .ok m ∧
        ((∀ q < d.size, q ∈ d.reachable) → m = d) ∧
        (∀ x, Represents x d → ∃ y, x.prune = .ok y ∧ Represents y m ∧ y.prune = .ok y ∧
          ((∀ q < d.size, q ∈ d.reachable) → y = x)) ∧
        ∃ a k b, m.minimize = .ok a ∧ d.minimize = .ok k ∧ k.prune = .ok b ∧
          Isomorphic a b ∧ a.alphabet = b.alphabet := by
  have wf := built.wellFormed
  obtain ⟨m, ok, restricts⟩ := exists_prune wf
  have wfM := wellFormed_prune wf ok
  have keeps := morphism_prune wf ok
  have again := prune_of_reached wfM (reached_prune wf ok)
  obtain ⟨a, first, mergedA⟩ := exists_minimize wfM
  obtain ⟨k, minimized, mergedK⟩ := exists_minimize wf
  obtain ⟨b, second, restrictsB⟩ := exists_prune mergedK.wellFormed
  refine ⟨increasing_reachable d, fun q => mem_reachable_iff_run wf, m, ok, restricts, ?_, again,
    ?_, ?_, a, k, b, first, minimized, second,
    isomorphic_prune_minimize wf ok first minimized second, ?_⟩
  · exact fun word => (keeps.accepts_eq wfM.det wfM.size_pos word).symm
  · intro all
    have whole := prune_of_reached wf fun q lt => (mem_reachable_iff_run wf).1 (all q lt)
    exact Except.ok.inj (ok.symm.trans whole)
  · intro x h
    obtain ⟨y, pruned, made, unchanged⟩ := h.exists_prune ok
    obtain ⟨z, twice, -, same⟩ := made.exists_prune again
    refine ⟨y, pruned, made, ?_, unchanged⟩
    rw [twice, same fun q lt => (mem_reachable_iff_run wfM).2 (reached_prune wf ok q lt)]
  · rw [mergedA.alphabet, restricts.alphabet, restrictsB.alphabet, mergedK.alphabet]

/-- A third state that nothing leads to, indistinguishable from the second. -/
def stray : Dfa where
  states := [⟨"s", false⟩, ⟨"p", true⟩, ⟨"q", true⟩]
  edges := [⟨0, 'a', 1⟩]
  alphabet := ['a']

theorem built_stray : Built stray := by
  have named := ((Built.new [] "s").addState "p").addState "q"
  have states := (named.setAccepting (q := 1) (by decide)).setAccepting (q := 2) (by decide)
  exact states.addTransition (e := ⟨0, 'a', 1⟩) (by decide) (by decide) rfl

theorem prune_keeps_reachable_stray : Built stray ∧
    ∃ m a b, stray.prune = .ok m ∧ m.minimize = .ok a ∧ m.ids = ["s", "p"] ∧
      a.ids = ["s", "p"] ∧ b.ids = ["s", "p,q"] ∧ Isomorphic a b := by
  obtain ⟨-, -, m, ok, -, -, -, -, -, a, k, b, first, minimized, second, isomorphic, -⟩ :=
    prune_keeps_reachable built_stray
  have pruned : stray.prune.map ids = .ok ["s", "p"] := by cbv
  have firstIds : (stray.prune.bind minimize).map ids = .ok ["s", "p"] := by cbv
  have secondIds : (stray.minimize.bind prune).map ids = .ok ["s", "p,q"] := by cbv
  simp only [ok, minimized, first, second, Except.map, Except.bind, Except.ok.injEq]
    at pruned firstIds secondIds
  exact ⟨built_stray, m, a, b, ok, first, pruned, firstIds, secondIds, isomorphic⟩

end RegularLanguages.Dfa
