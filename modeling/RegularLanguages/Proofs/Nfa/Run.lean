import Mathlib.Data.List.Induction
import RegularLanguages.Nfa.Run
import RegularLanguages.Proofs.Nfa.Path
import RegularLanguages.Proofs.Reach

/-! # Sets of states follow paths

On an automaton that has its start and the ends of its edges (`Grounded`)
`closure` adds what paths without characters lead to, and the set that a word
leads to (`statesAfter`) holds the ends of the paths from the start that spell
the word.  So a run accepts a word exactly if an accepting path spells it
(`accepts_iff_hasAcceptingPath`); giving up on an empty set changes nothing.  A
well-formed automaton has its accepting states too and knows the characters on
its edges. -/
set_option autoImplicit false
namespace RegularLanguages.Nfa

/-- What every automaton is, whether or not its alphabet was told of its
edges. -/
structure Grounded (n : Nfa) : Prop where
  size_pos : 0 < n.size
  ends : ∀ e ∈ n.edges, e.source < n.size ∧ e.target < n.size
  increasing : OrderedSet.Increasing n.alphabet

structure WellFormed (n : Nfa) : Prop extends Grounded n where
  accepting : ∀ q ∈ n.accepting, q < n.size
  symbols : ∀ e ∈ n.edges, ∀ c, e.label.symbol? = some c → c ∈ n.alphabet

def Productive (n : Nfa) : Prop :=
  ∀ q < n.size, ∃ word t, n.isAccepting t = true ∧ Path n.edges q word t

/-! ## Sets of states -/

variable {n : Nfa} {p q : Nat} {states : List Nat} {word u v : List Char} {c : Char}

theorem mem_targets {label : Label} : q ∈ n.targets label p ↔ ⟨p, label, q⟩ ∈ n.edges := by
  simp only [targets, List.mem_map, List.mem_filter, Bool.and_eq_true, beq_iff_eq]
  constructor
  · rintro ⟨⟨_, _, _⟩, ⟨edge, rfl, rfl⟩, rfl⟩
    exact edge
  · intro edge
    exact ⟨_, ⟨edge, rfl, rfl⟩, rfl⟩

theorem mem_step : q ∈ n.step c states ↔
    ∃ p ∈ states, ∃ label : Label, label.reads c = true ∧ ⟨p, label, q⟩ ∈ n.edges := by
  simp only [step, move, List.mem_append, List.mem_flatMap, mem_targets]
  constructor
  · rintro (⟨p, mem, edge⟩ | ⟨p, mem, edge⟩)
    · exact ⟨p, mem, .symbol c, by simp [Label.reads], edge⟩
    · exact ⟨p, mem, .any, rfl, edge⟩
  · rintro ⟨p, mem, label, reads, edge⟩
    cases label with
    | symbol d =>
        obtain rfl : d = c := by simpa [Label.reads] using reads
        exact .inl ⟨p, mem, edge⟩
    | any => exact .inr ⟨p, mem, edge⟩
    | epsilon => cases reads

theorem leads_iff_path :
    Reach.Leads (n.targets .epsilon) p q ↔ Path n.edges p [] q := by
  constructor
  · intro leads
    induction leads using Relation.ReflTransGen.head_induction_on with
    | refl => exact .stay q
    | head step _ ih => exact .silent (mem_targets.1 step) ih
  · intro path
    generalize silent : [] = w at path
    induction path with
    | stay => exact .refl
    | silent edge _ ih => exact .head (mem_targets.2 edge) (ih silent)
    | read => cases silent

def statesAfter (n : Nfa) (word : List Char) : List Nat :=
  word.foldl (fun states c => n.closure (n.step c states)) (n.closure [0])

theorem statesAfter_append_singleton (n : Nfa) (word : List Char) (c : Char) :
    n.statesAfter (word ++ [c]) = n.closure (n.step c (n.statesAfter word)) := by
  simp [statesAfter]

theorem closure_nil (n : Nfa) : n.closure [] = [] := by
  have noLayer : Reach.layer (n.targets .epsilon) [] [] = [] := rfl
  rw [closure, Reach.reach]
  cases n.size with
  | zero => rfl
  | succ rounds =>
      rw [Reach.spread_succ]
      exact if_pos noLayer

theorem acceptsFrom_eq (n : Nfa) (word : List Char) (states : List Nat) :
    n.acceptsFrom states word =
      n.acceptsSome (word.foldl (fun states c => n.closure (n.step c states)) states) := by
  induction word generalizing states with
  | nil => rfl
  | cons c rest ih =>
      simp only [acceptsFrom, List.foldl_cons]
      split
      next empty =>
        -- From the empty set no character leads anywhere.
        rw [empty, closure_nil, ← ih []]
        cases rest with
        | nil => rfl
        | cons d rest => rfl
      next => exact ih _

theorem accepts_eq (n : Nfa) (word : List Char) :
    n.accepts word = n.acceptsSome (n.statesAfter word) :=
  n.acceptsFrom_eq word (n.closure [0])

theorem increasing_closure (n : Nfa) (states : List Nat) :
    OrderedSet.Increasing (n.closure states) :=
  Reach.increasing_reach _ _ states

theorem subset_closure (n : Nfa) (states : List Nat) : states ⊆ n.closure states :=
  fun q mem => Reach.subset_spread _ _ _ _ ((OrderedSet.mem_ofList q states).2 mem)

theorem closure_eq_nil {n : Nfa} {states : List Nat} : n.closure states = [] ↔ states = [] := by
  constructor
  · intro empty
    exact List.subset_nil.1 (empty ▸ n.subset_closure states)
  · rintro rfl
    exact n.closure_nil

theorem increasing_statesAfter (n : Nfa) (word : List Char) :
    OrderedSet.Increasing (n.statesAfter word) := by
  rcases List.eq_nil_or_concat' word with rfl | ⟨before, c, rfl⟩
  · exact n.increasing_closure [0]
  · rw [statesAfter_append_singleton]
    exact n.increasing_closure _

namespace Grounded

theorem bounded (grounded : Grounded n) (label : Label) :
    Reach.Bounded (n.targets label) n.size :=
  fun _ _ step => (grounded.ends _ (mem_targets.1 step)).2

theorem mem_closure (grounded : Grounded n) (inside : ∀ p ∈ states, p < n.size) :
    q ∈ n.closure states ↔ ∃ p ∈ states, Path n.edges p [] q := by
  rw [closure, Reach.mem_reach (grounded.bounded .epsilon) inside]
  simp only [leads_iff_path]

theorem step_lt (grounded : Grounded n) (mem : q ∈ n.step c states) : q < n.size := by
  obtain ⟨p, -, label, -, edge⟩ := mem_step.1 mem
  exact (grounded.ends _ edge).2

/-- The set that a word leads to holds the ends of the paths that spell it. -/
theorem mem_statesAfter (grounded : Grounded n) :
    q ∈ n.statesAfter word ↔ Path n.edges 0 word q := by
  induction word using List.reverseRecOn generalizing q with
  | nil =>
      have inside : ∀ p ∈ [0], p < n.size := by
        intro p mem
        rw [List.mem_singleton.1 mem]
        exact grounded.size_pos
      simpa [statesAfter] using grounded.mem_closure inside
  | append_singleton word c ih =>
      rw [statesAfter_append_singleton,
        grounded.mem_closure fun p mem => grounded.step_lt mem, Path.append_iff]
      constructor
      · rintro ⟨b, stepped, after⟩
        obtain ⟨a, mem, label, reads, edge⟩ := mem_step.1 stepped
        exact ⟨a, ih.1 mem, Path.singleton_iff.2 ⟨a, label, b, .stay a, edge, reads, after⟩⟩
      · rintro ⟨m, before, last⟩
        obtain ⟨a, label, b, silent, edge, reads, after⟩ := Path.singleton_iff.1 last
        have reached : a ∈ n.statesAfter word := ih.2 (by simpa using before.append silent)
        exact ⟨b, mem_step.2 ⟨a, reached, label, reads, edge⟩, after⟩

theorem statesAfter_eq_nil_iff (grounded : Grounded n) :
    n.statesAfter word = [] ↔ ∀ q, ¬Path n.edges 0 word q := by
  simp only [List.eq_nil_iff_forall_not_mem, grounded.mem_statesAfter]

theorem statesAfter_eq_iff (grounded : Grounded n) :
    n.statesAfter u = n.statesAfter v ↔ ∀ q, Path n.edges 0 u q ↔ Path n.edges 0 v q := by
  simp only [← grounded.mem_statesAfter]
  constructor
  · intro same q
    rw [same]
  · exact (n.increasing_statesAfter u).ext (n.increasing_statesAfter v)

theorem statesAfter_lt (grounded : Grounded n) (mem : q ∈ n.statesAfter word) : q < n.size :=
  (grounded.mem_statesAfter.1 mem).target_lt (fun e edge => (grounded.ends e edge).2)
    grounded.size_pos

theorem accepts_iff_hasAcceptingPath (grounded : Grounded n) :
    n.accepts word = true ↔ n.HasAcceptingPath word := by
  rw [accepts_eq, acceptsSome, List.any_eq_true]
  constructor
  · rintro ⟨q, mem, accepting⟩
    exact ⟨q, accepting, grounded.mem_statesAfter.1 mem⟩
  · rintro ⟨q, accepting, path⟩
    exact ⟨q, grounded.mem_statesAfter.2 path, accepting⟩

end Grounded

end RegularLanguages.Nfa
