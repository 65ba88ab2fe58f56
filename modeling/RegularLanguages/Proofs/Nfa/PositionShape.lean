import RegularLanguages.Proofs.Nfa.Recognition

/-! # The exact shape of the automaton of positions

Take the occurrences of an expression as letters of their own.  A position can come
first exactly if some word begins with it, it can follow another exactly if
some word has the one right after the other, and it can come last exactly if some
word ends in it: every position stands in a word, and in a word what comes after a
position may be replaced by any of its tails (`mem_chains_replace`).  So the
automaton has an edge where a word has two neighbours, once and with the label of
its target, and nothing besides (`ofPositions_shape`). -/
set_option autoImplicit false
namespace RegularLanguages

namespace Positions

variable {ps : Positions} {p q : Nat} {u v w : List Nat}

/-! ## Words of occurrences -/

theorem Tail.replace {a : Nat} (tail : Tail ps a (u ++ p :: v)) (other : Tail ps p w) :
    Tail ps a (u ++ p :: w) := by
  induction u generalizing a with
  | nil =>
      cases tail with
      | next step _ => exact .next step other
  | cons b u ih =>
      cases tail with
      | next step onward => exact .next step (ih onward)

/-- What comes after a position in a word may be replaced by any of its tails. -/
theorem mem_chains_replace (chain : u ++ p :: v ∈ ps.chains) (other : Tail ps p w) :
    u ++ p :: w ∈ ps.chains := by
  cases u with
  | nil =>
      have first := (cons_mem_chains.1 chain).1
      exact cons_mem_chains.2 ⟨first, other⟩
  | cons a u =>
      obtain ⟨first, tail⟩ := cons_mem_chains.1 chain
      exact cons_mem_chains.2 ⟨first, tail.replace other⟩

variable {r : Regex}

theorem exists_mem_chains (bounds : 1 ≤ p ∧ p < 1 + (ofRegex 1 r).labels.length) :
    ∃ u v, u ++ p :: v ∈ (ofRegex 1 r).chains := by
  have describes := describes_ofRegex r 1
  rw [describes.chains_eq]
  apply Regex.covers_occurrenceLanguage r 1 p bounds.1
  rw [← describes.labels_eq]
  exact bounds.2

theorem exists_tail (bounds : 1 ≤ p ∧ p < 1 + (ofRegex 1 r).labels.length) :
    ∃ v, Tail (ofRegex 1 r) p v := by
  obtain ⟨u, v, chain⟩ := exists_mem_chains bounds
  exact ⟨v, tail_of_mem_chains chain⟩

theorem mem_first_iff :
    p ∈ (ofRegex 1 r).first ↔ ∃ v, p :: v ∈ r.occurrenceLanguage 1 := by
  have describes := describes_ofRegex r 1
  rw [← describes.chains_eq]
  constructor
  · intro first
    obtain ⟨v, tail⟩ := exists_tail (describes.within.first p first)
    exact ⟨v, cons_mem_chains.2 ⟨first, tail⟩⟩
  · intro ⟨v, chain⟩
    exact (cons_mem_chains.1 chain).1

theorem mem_follow_iff :
    (p, q) ∈ (ofRegex 1 r).follow ↔ ∃ u v, u ++ p :: q :: v ∈ r.occurrenceLanguage 1 := by
  have describes := describes_ofRegex r 1
  rw [← describes.chains_eq]
  constructor
  · intro follows
    have bounds := describes.within.follow _ follows
    obtain ⟨u, _, chain⟩ := exists_mem_chains bounds.1
    obtain ⟨v, tail⟩ := exists_tail bounds.2
    exact ⟨u, v, mem_chains_replace chain (.next follows tail)⟩
  · intro ⟨u, v, chain⟩
    cases tail_of_mem_chains chain with
    | next follows _ => exact follows

theorem mem_last_iff :
    p ∈ (ofRegex 1 r).last ↔ ∃ u, u ++ [p] ∈ r.occurrenceLanguage 1 := by
  have describes := describes_ofRegex r 1
  rw [← describes.chains_eq]
  constructor
  · intro last
    obtain ⟨u, _, chain⟩ := exists_mem_chains (describes.within.last p last)
    exact ⟨u, mem_chains_replace chain (.stop last)⟩
  · intro ⟨u, chain⟩
    cases tail_of_mem_chains chain with
    | stop last => exact last

end Positions

theorem Regex.nil_mem_occurrenceLanguage (r : Regex) (base : Nat)
    {labelAt : Nat → Label} (carries : Carries labelAt base r.occurrences) :
    [] ∈ r.occurrenceLanguage base ↔ [] ∈ r.language := by
  rw [← spellings_occurrenceLanguage labelAt r base carries, mem_spellings]
  simp

theorem Positions.nullable_iff {r : Regex} :
    (ofRegex 1 r).nullable = true ↔ [] ∈ r.language := by
  rw [← nil_mem_chains, (describes_ofRegex r 1).chains_eq,
    r.nil_mem_occurrenceLanguage 1 (Nfa.carries_labelAt r)]

namespace Nfa

variable {r : Regex} {p q : Nat}

/-! ## Edges -/

def Edge.Before (e f : Edge) : Prop :=
  e.source < f.source ∨ e.source = f.source ∧ e.target < f.target

theorem pairwise_edgesTo (ps : Positions) (source : Nat) (positions : List Nat) :
    (ps.edgesTo source positions).Pairwise Edge.Before := by
  have increasing : (OrderedSet.ofList positions).Pairwise (· < ·) :=
    OrderedSet.increasing_ofList positions
  refine List.pairwise_filterMap.2 (increasing.imp fun {p q} below e found f found' => ?_)
  obtain ⟨label, -, rfl⟩ := Option.map_eq_some_iff.1 found
  obtain ⟨label', -, rfl⟩ := Option.map_eq_some_iff.1 found'
  exact .inr ⟨rfl, below⟩

theorem pairwise_edges_ofPositions (r : Regex) :
    (ofPositions r).edges.Pairwise Edge.Before := by
  refine List.pairwise_append.2 ⟨pairwise_edgesTo _ _ _, List.pairwise_flatMap.2 ⟨?_, ?_⟩, ?_⟩
  · exact fun p _ => pairwise_edgesTo _ _ _
  · refine (List.pairwise_lt_range' 1).imp fun {p q} below e mem f mem' => ?_
    rw [Edge.Before, (Positions.mem_edgesTo.1 mem).1, (Positions.mem_edgesTo.1 mem').1]
    exact .inl below
  · intro e mem f mem'
    obtain ⟨p, bounds, mem'⟩ := List.mem_flatMap.1 mem'
    rw [Edge.Before, (Positions.mem_edgesTo.1 mem).1, (Positions.mem_edgesTo.1 mem').1]
    exact .inl (List.mem_range'_1.1 bounds).1

theorem nodup_ends_ofPositions (r : Regex) :
    ((ofPositions r).edges.map fun e => (e.source, e.target)).Nodup := by
  refine List.pairwise_map.2 ((pairwise_edges_ofPositions r).imp fun {e f} before same => ?_)
  obtain ⟨sources, targets⟩ := Prod.mk.inj same
  rcases before with below | ⟨-, below⟩
  · omega
  · omega

theorem exists_edge_ofPositions_iff :
    (∃ label, ⟨p, label, q⟩ ∈ (ofPositions r).edges) ↔
      (p = 0 ∧ q ∈ (Positions.ofRegex 1 r).first) ∨ (p, q) ∈ (Positions.ofRegex 1 r).follow := by
  simp only [mem_edges_ofPositions, exists_and_right, and_iff_right_iff_imp]
  have within := (Positions.describes_ofRegex r 1).within
  rintro (⟨-, first⟩ | follows)
  · exact exists_label (within.first q first)
  · exact exists_label (within.follow _ follows).2

/-! ## Edges and acceptance in words of occurrences -/

theorem occurrence_of_edge {label : Label} (edge : ⟨p, label, q⟩ ∈ (ofPositions r).edges) :
    0 < q ∧ r.occurrences[q - 1]? = some label := by
  have found := (mem_edges_ofPositions.1 edge).1
  rw [(Positions.describes_ofRegex r 1).labels_eq] at found
  exact ⟨(target_ofPositions edge).1, found⟩

theorem exists_edge_zero_iff :
    (∃ label, ⟨0, label, q⟩ ∈ (ofPositions r).edges) ↔ ∃ v, q :: v ∈ r.occurrenceLanguage 1 := by
  rw [exists_edge_ofPositions_iff, ← Positions.mem_first_iff]
  have notFollowed : (0, q) ∉ (Positions.ofRegex 1 r).follow := by
    intro follows
    have bounds := ((Positions.describes_ofRegex r 1).within.follow _ follows).1
    omega
  simp [notFollowed]

theorem exists_edge_iff_of_pos (pos : 0 < p) :
    (∃ label, ⟨p, label, q⟩ ∈ (ofPositions r).edges) ↔
      ∃ u v, u ++ p :: q :: v ∈ r.occurrenceLanguage 1 := by
  rw [exists_edge_ofPositions_iff, ← Positions.mem_follow_iff]
  simp [Nat.ne_of_gt pos]

theorem isAccepting_iff_of_pos (pos : 0 < p) :
    (ofPositions r).isAccepting p = true ↔ ∃ u, u ++ [p] ∈ r.occurrenceLanguage 1 := by
  rw [isAccepting_ofPositions, ← Positions.mem_last_iff]
  simp [Nat.ne_of_gt pos]

theorem isAccepting_zero_iff : (ofPositions r).isAccepting 0 = true ↔ [] ∈ r.language := by
  rw [isAccepting_ofPositions, ← Positions.nullable_iff]
  have notLast : 0 ∉ (Positions.ofRegex 1 r).last := by
    intro last
    have bounds := (Positions.describes_ofRegex r 1).within.last 0 last
    omega
  simp [notLast]

/-! ## Ways to positions -/

theorem Path.exists_step {u : List Char} (path : Path (ofPositions r).edges 0 u p)
    (edge : ∃ label, ⟨p, label, q⟩ ∈ (ofPositions r).edges) :
    ∃ w, Path (ofPositions r).edges 0 w q := by
  obtain ⟨label, edge⟩ := edge
  obtain ⟨c, reads⟩ := exists_reads (mem_edges_ofPositions.1 edge).1
  exact ⟨u ++ [c], path.append (.read edge reads (.stay q))⟩

theorem Path.exists_of_tail {v w : List Nat}
    (tail : Positions.Tail (Positions.ofRegex 1 r) p (v ++ q :: w)) {u : List Char}
    (path : Path (ofPositions r).edges 0 u p) : ∃ u, Path (ofPositions r).edges 0 u q := by
  -- One position of the tail after the other is reached, until `q` comes next.
  induction v generalizing p u with
  | nil =>
      cases tail with
      | next follows _ => exact path.exists_step (exists_edge_ofPositions_iff.2 (.inr follows))
  | cons next v ih =>
      cases tail with
      | next follows onward =>
          obtain ⟨u, there⟩ := path.exists_step (exists_edge_ofPositions_iff.2 (.inr follows))
          exact ih onward there

theorem exists_path_ofPositions (lt : q < (ofPositions r).size) :
    ∃ u, Path (ofPositions r).edges 0 u q := by
  have length := congrArg List.length (Positions.describes_ofRegex r 1).labels_eq
  rw [size_ofPositions] at lt
  cases q with
  | zero => exact ⟨[], .stay 0⟩
  | succ q =>
      obtain ⟨v, w, chain⟩ := Positions.exists_mem_chains (r := r) (p := q + 1) (by omega)
      have start : Path (ofPositions r).edges 0 [] 0 := .stay 0
      have enter : ∀ {p}, p ∈ (Positions.ofRegex 1 r).first →
          ∃ u, Path (ofPositions r).edges 0 u p :=
        fun first => start.exists_step (exists_edge_ofPositions_iff.2 (.inl ⟨rfl, first⟩))
      cases v with
      | nil => exact enter (Positions.cons_mem_chains.1 chain).1
      | cons p v =>
          obtain ⟨first, tail⟩ := Positions.cons_mem_chains.1 chain
          obtain ⟨u, path⟩ := enter first
          exact path.exists_of_tail tail

/-! ## The shape -/

/-- What the automaton of the occurrences of an expression looks like, the
occurrences taken as letters of their own and numbered from 1 up. -/
structure OccurrenceShape (r : Regex) (n : Nfa) : Prop where
  size : n.size = r.occurrences.length + 1
  labels : ∀ e ∈ n.edges, 0 < e.target ∧ r.occurrences[e.target - 1]? = some e.label
  once : (n.edges.map fun e => (e.source, e.target)).Nodup
  reading : n.hasEpsilon = false
  first : ∀ q, (∃ label, ⟨0, label, q⟩ ∈ n.edges) ↔ ∃ v, q :: v ∈ r.occurrenceLanguage 1
  follow : ∀ p q, 0 < p → ((∃ label, ⟨p, label, q⟩ ∈ n.edges) ↔
    ∃ u v, u ++ p :: q :: v ∈ r.occurrenceLanguage 1)
  last : ∀ p, 0 < p → (n.isAccepting p = true ↔ ∃ u, u ++ [p] ∈ r.occurrenceLanguage 1)
  start : n.isAccepting 0 = true ↔ [] ∈ r.language
  useful : ∀ q < n.size, ∃ u v t,
    Path n.edges 0 u q ∧ Path n.edges q v t ∧ n.isAccepting t = true

theorem ofPositions_shape (r : Regex) : OccurrenceShape r (ofPositions r) where
  size := size_ofPositions r
  labels := fun _ edge => occurrence_of_edge edge
  once := nodup_ends_ofPositions r
  reading := hasEpsilon_eq_false_iff.2 fun _ _ => epsilon_not_mem_ofPositions
  first := fun _ => exists_edge_zero_iff
  follow := fun _ _ pos => exists_edge_iff_of_pos pos
  last := fun _ pos => isAccepting_iff_of_pos pos
  start := isAccepting_zero_iff
  useful := by
    intro q lt
    obtain ⟨u, before⟩ := exists_path_ofPositions lt
    obtain ⟨v, t, accepting, after⟩ := productive_ofPositions r q lt
    exact ⟨u, v, t, before, after, accepting⟩

end Nfa

end RegularLanguages
