import Mathlib.Data.List.Sublists
import RegularLanguages.Nfa.Subset
import RegularLanguages.Proofs.Dfa.Run
import RegularLanguages.Proofs.Distinct
import RegularLanguages.Proofs.Nfa.Run

/-! # The search for sets of states

The state of the search is described by what is known of the sets before
number `source` and, while a set is expanded, of the characters that have been
followed from it (`Exploring`).  Following one character keeps the description
(`Exploring.skip`, `Exploring.arrive`), so expanding a set keeps it and the whole
search does (`Invariant.expand`, `Invariant.explore`).  At its end every set that
a word over the alphabet leads to is found once, and the edges are the steps
between the found sets (`Discovered`). -/
set_option autoImplicit false
namespace RegularLanguages.Subset.Discovery

variable {n : Nfa} {alphabet rest done : List Char} {limit : Option Nat} {source : Nat}
  {c : Char} {set : List Nat} {d m : Discovery}

theorem arrive_ok (h : d.arrive limit source c set = .ok m) :
    m.sets = Distinct.add d.sets set ∧
      ∃ target, m.edges = ⟨source, c, target⟩ :: d.edges ∧ m.sets[target]? = some set := by
  rw [arrive] at h
  split at h
  next target found =>
    obtain rfl := Except.ok.inj h
    obtain ⟨lt, same, -⟩ := List.idxOf?_eq_some_iff.1 found
    have old : set ∈ d.sets := same ▸ List.getElem_mem lt
    exact ⟨(Distinct.add_of_mem old).symm, target, rfl, List.getElem?_eq_some_iff.2 ⟨lt, same⟩⟩
  next unknown =>
    split at h
    next => cases h
    next =>
      obtain rfl := Except.ok.inj h
      have new := List.idxOf?_eq_none_iff.1 unknown
      exact ⟨(Distinct.add_of_notMem new).symm, d.sets.length, rfl, by simp⟩

theorem reached_step
    (reached : ∃ word, (∀ c ∈ word, c ∈ alphabet) ∧ n.statesAfter word = set)
    (known : c ∈ alphabet) :
    ∃ word, (∀ c ∈ word, c ∈ alphabet) ∧ n.statesAfter word = n.closure (n.step c set) := by
  obtain ⟨word, allowed, rfl⟩ := reached
  refine ⟨word ++ [c], fun b mem => ?_, Nfa.statesAfter_append_singleton n word c⟩
  rcases List.mem_append.1 mem with inWord | last
  · exact allowed b inWord
  · exact List.mem_singleton.1 last ▸ known

def Follows (n : Nfa) (d : Discovery) (e : Dfa.Edge) : Prop :=
  ∃ set, d.sets[e.source]? = some set ∧ n.step e.symbol set ≠ [] ∧
    d.sets[e.target]? = some (n.closure (n.step e.symbol set))

def Covered (n : Nfa) (d : Discovery) (i : Nat) (c : Char) : Prop :=
  ∀ set, d.sets[i]? = some set → n.step c set ≠ [] → ∃ j, ⟨i, c, j⟩ ∈ d.edges

theorem getElem?_mono {s t : List (List Nat)} {i : Nat} {x : List Nat} (older : s <+: t)
    (found : s[i]? = some x) : t[i]? = some x := by
  obtain ⟨more, rfl⟩ := older
  rw [List.getElem?_append_left (List.getElem?_eq_some_iff.1 found).1, found]

theorem Follows.mono {e : Dfa.Edge} (h : Follows n d e) (older : d.sets <+: m.sets) :
    Follows n m e := by
  obtain ⟨set, source, leads, target⟩ := h
  exact ⟨set, getElem?_mono older source, leads, getElem?_mono older target⟩

theorem Covered.mono {i : Nat} (h : Covered n d i c) (older : d.sets <+: m.sets)
    (edges : d.edges ⊆ m.edges) (lt : i < d.sets.length) : Covered n m i c := by
  intro set found leads
  obtain ⟨old, there⟩ : ∃ old, d.sets[i]? = some old := ⟨_, List.getElem?_eq_getElem lt⟩
  obtain rfl : old = set :=
    Option.some.inj ((getElem?_mono older there).symm.trans found)
  obtain ⟨j, edge⟩ := h old there leads
  exact ⟨j, edges edge⟩

/-- What is known while the set of number `source` is expanded, after the
characters `done` have been followed. -/
structure Exploring (n : Nfa) (alphabet : List Char) (source : Nat) (done : List Char)
    (d : Discovery) : Prop where
  start : d.sets[0]? = some (n.closure [0])
  sets_nodup : d.sets.Nodup
  nonempty : ∀ set ∈ d.sets, set ≠ []
  reached : ∀ set ∈ d.sets, ∃ word, (∀ c ∈ word, c ∈ alphabet) ∧ n.statesAfter word = set
  edges_nodup : d.edges.Nodup
  follows : ∀ e ∈ d.edges, e.symbol ∈ alphabet ∧ Follows n d e
  sources : ∀ e ∈ d.edges, e.source < source ∨ (e.source = source ∧ e.symbol ∈ done)
  before : ∀ i < source, ∀ c ∈ alphabet, Covered n d i c
  current : ∀ c ∈ done, Covered n d source c

namespace Exploring

theorem skip (h : Exploring n alphabet source done d) (found : d.sets[source]? = some set)
    (nowhere : n.step c set = []) : Exploring n alphabet source (done ++ [c]) d where
  start := h.start
  sets_nodup := h.sets_nodup
  nonempty := h.nonempty
  reached := h.reached
  edges_nodup := h.edges_nodup
  follows := h.follows
  sources := by
    intro e edge
    rcases h.sources e edge with earlier | ⟨same, mem⟩
    · exact .inl earlier
    · exact .inr ⟨same, List.mem_append_left [c] mem⟩
  before := h.before
  current := by
    intro b mem other there leads
    rcases List.mem_append.1 mem with old | new
    · exact h.current b old other there leads
    · obtain rfl := List.mem_singleton.1 new
      obtain rfl : set = other := Option.some.inj (found.symm.trans there)
      exact absurd nowhere leads

theorem fresh (h : Exploring n alphabet source done d) (new : c ∉ done) :
    ∀ e ∈ d.edges, source = e.source → c ≠ e.symbol := by
  intro e edge same symbol
  rcases h.sources e edge with earlier | ⟨-, mem⟩
  · exact absurd same (Nat.ne_of_gt earlier)
  · exact new (symbol ▸ mem)

theorem arrive (h : Exploring n alphabet source done d) (found : d.sets[source]? = some set)
    (leads : n.step c set ≠ []) (known : c ∈ alphabet) (new : c ∉ done)
    (ok : d.arrive limit source c (n.closure (n.step c set)) = .ok m) :
    Exploring n alphabet source (done ++ [c]) m := by
  obtain ⟨sets, target, edges, there⟩ := arrive_ok ok
  have older : d.sets <+: m.sets := sets ▸ Distinct.prefix_add d.sets _
  have kept : d.edges ⊆ m.edges := edges ▸ List.subset_cons_self _ _
  have sourceLt : source < d.sets.length := (List.getElem?_eq_some_iff.1 found).1
  have cases_set : ∀ other ∈ m.sets, other ∈ d.sets ∨ other = n.closure (n.step c set) :=
    fun other mem => Distinct.mem_add.1 (sets ▸ mem)
  refine
    { start := getElem?_mono older h.start
      sets_nodup := sets ▸ Distinct.nodup_add h.sets_nodup _
      nonempty := ?_
      reached := ?_
      edges_nodup := ?_
      follows := ?_
      sources := ?_
      before := fun i lt b mem =>
        (h.before i lt b mem).mono older kept (Nat.lt_trans lt sourceLt)
      current := ?_ }
  · intro other mem
    rcases cases_set other mem with old | rfl
    · exact h.nonempty other old
    · exact fun empty => leads (Nfa.closure_eq_nil.1 empty)
  · intro other mem
    rcases cases_set other mem with old | rfl
    · exact h.reached other old
    · exact reached_step (h.reached set (List.mem_of_getElem? found)) known
  · rw [edges]
    exact List.nodup_cons.2 ⟨fun edge => h.fresh new _ edge rfl rfl, h.edges_nodup⟩
  · intro e edge
    rw [edges] at edge
    rcases List.mem_cons.1 edge with rfl | old
    · exact ⟨known, set, getElem?_mono older found, leads, there⟩
    · exact ⟨(h.follows e old).1, (h.follows e old).2.mono older⟩
  · intro e edge
    rw [edges] at edge
    rcases List.mem_cons.1 edge with rfl | old
    · exact .inr ⟨rfl, List.mem_append_right done (List.mem_singleton_self c)⟩
    · rcases h.sources e old with earlier | ⟨same, mem⟩
      · exact .inl earlier
      · exact .inr ⟨same, List.mem_append_left [c] mem⟩
  · intro b mem
    rcases List.mem_append.1 mem with old | last
    · exact (h.current b old).mono older kept sourceLt
    · obtain rfl := List.mem_singleton.1 last
      intro s there leads
      exact ⟨target, edges ▸ List.mem_cons_self⟩

theorem next (h : Exploring n alphabet source alphabet d) :
    Exploring n alphabet (source + 1) [] d where
  start := h.start
  sets_nodup := h.sets_nodup
  nonempty := h.nonempty
  reached := h.reached
  edges_nodup := h.edges_nodup
  follows := h.follows
  sources := by
    intro e edge
    rcases h.sources e edge with earlier | ⟨same, -⟩
    · exact .inl (Nat.lt_succ_of_lt earlier)
    · exact .inl (same ▸ Nat.lt_succ_self source)
  before := by
    intro i lt b mem
    rcases Nat.lt_succ_iff_lt_or_eq.1 lt with earlier | rfl
    · exact h.before i earlier b mem
    · exact h.current b mem
  current := fun b mem => absurd mem List.not_mem_nil

end Exploring

/-! ## What the search keeps -/

/-- What each step of the search keeps: to pass over a character that leads
nowhere, to arrive at the set that a character leads to, and to go on with the
next set. -/
structure Invariant (n : Nfa) (alphabet : List Char) (limit : Option Nat)
    (P : Nat → List Char → Discovery → Prop) : Prop where
  skip : ∀ {source done c rest set d}, alphabet = done ++ c :: rest → P source done d →
    d.sets[source]? = some set → n.step c set = [] → P source (done ++ [c]) d
  arrive : ∀ {source done c rest set d m}, alphabet = done ++ c :: rest → P source done d →
    d.sets[source]? = some set → n.step c set ≠ [] →
      d.arrive limit source c (n.closure (n.step c set)) = .ok m → P source (done ++ [c]) m
  next : ∀ {source d}, P source alphabet d → P (source + 1) [] d

namespace Invariant

variable {P : Nat → List Char → Discovery → Prop} {rounds : Nat}

theorem expand (inv : Invariant n alphabet limit P) (whole : alphabet = done ++ rest)
    (found : d.sets[source]? = some set) (start : P source done d)
    (ok : Discovery.expand n limit source set rest d = .ok m) : P source alphabet m := by
  induction rest generalizing done d with
  | nil =>
      obtain rfl := Except.ok.inj ok
      obtain rfl : alphabet = done := by simpa using whole
      exact start
  | cons c rest ih =>
      have wholeNext : alphabet = (done ++ [c]) ++ rest := by simpa using whole
      rw [Discovery.expand] at ok
      split at ok
      next nowhere => exact ih wholeNext found (inv.skip whole start found nowhere) ok
      next somewhere =>
        split at ok
        next later arrived =>
          have keep := inv.arrive whole start found somewhere arrived
          obtain ⟨sets, -⟩ := arrive_ok arrived
          have still : later.sets[source]? = some set :=
            getElem?_mono (sets ▸ Distinct.prefix_add d.sets _) found
          exact ih wholeNext still keep ok
        next => cases ok

theorem turn (inv : Invariant n alphabet limit P) (start : P source [] d)
    (found : d.sets[source]? = some set)
    (ok : Discovery.expand n limit source set alphabet d = .ok m) : P (source + 1) [] m :=
  inv.next (inv.expand (List.nil_append alphabet).symm found start ok)

theorem explore (inv : Invariant n alphabet limit P) (start : P source [] d)
    (ok : Discovery.explore n alphabet limit rounds source d = .ok m) :
    ∃ last, P last [] m ∧ (m.sets.length ≤ last ∨ last = source + rounds) := by
  induction rounds generalizing source d with
  | zero =>
      obtain rfl := Except.ok.inj ok
      exact ⟨source, start, .inr rfl⟩
  | succ rounds ih =>
      rw [Discovery.explore] at ok
      split at ok
      next behind =>
        obtain rfl := Except.ok.inj ok
        exact ⟨source, start, .inl (List.getElem?_eq_none_iff.1 behind)⟩
      next set found =>
        split at ok
        next later expanded =>
          obtain ⟨last, final, bound⟩ := ih (inv.turn start found expanded) ok
          exact ⟨last, final, by omega⟩
        next => cases ok

end Invariant

theorem lt_of_mem_done {b : Char} (increasing : OrderedSet.Increasing alphabet)
    (whole : alphabet = done ++ c :: rest) (mem : b ∈ done) : b < c := by
  rw [whole] at increasing
  exact (List.pairwise_append.1 increasing).2.2 b mem c List.mem_cons_self

theorem not_mem_done (increasing : OrderedSet.Increasing alphabet)
    (whole : alphabet = done ++ c :: rest) : c ∉ done := fun mem =>
  Char.lt_irrefl c (lt_of_mem_done increasing whole mem)

theorem invariant_exploring (increasing : OrderedSet.Increasing alphabet) :
    Invariant n alphabet limit (Exploring n alphabet) where
  skip _ h found nowhere := h.skip found nowhere
  arrive := by
    intro source done c rest set d m whole h found leads ok
    have known : c ∈ alphabet := whole ▸ List.mem_append_right done List.mem_cons_self
    exact h.arrive found leads known (not_mem_done increasing whole) ok
  next := Exploring.next

/-! ## The end of the search -/

/-- Different nonempty sets of numbers below a bound are fewer than the powers
of two tell. -/
theorem length_lt_two_pow {sets : List (List Nat)} {size : Nat} (nodup : sets.Nodup)
    (nonempty : ∀ set ∈ sets, set ≠ []) (increasing : ∀ set ∈ sets, OrderedSet.Increasing set)
    (bounded : ∀ set ∈ sets, ∀ q ∈ set, q < size) : sets.length < 2 ^ size := by
  have inside : [] :: sets ⊆ (List.range size).sublists := by
    intro set mem
    rw [List.mem_sublists]
    rcases List.mem_cons.1 mem with rfl | mem
    · exact List.nil_sublist _
    · have range : OrderedSet.Increasing ((List.range size).filter (· ∈ set)) :=
        List.Pairwise.filter _ List.pairwise_lt_range
      have same : set = (List.range size).filter (· ∈ set) := by
        refine (increasing set mem).ext range fun q => ?_
        simp only [List.mem_filter, List.mem_range, decide_eq_true_eq]
        exact ⟨fun member => ⟨bounded set mem q member, member⟩, And.right⟩
      rw [same]
      exact List.filter_sublist
  have distinct : ([] :: sets).Nodup :=
    List.nodup_cons.2 ⟨fun mem => nonempty [] mem rfl, nodup⟩
  have counted := (distinct.subperm inside).length_le
  rwa [List.length_sublists, List.length_range] at counted

/-- Every set that a word over the alphabet leads to is found once, and the
edges are the steps between the found sets. -/
structure Discovered (n : Nfa) (alphabet : List Char) (d : Discovery) : Prop where
  start : d.sets[0]? = some (n.closure [0])
  sets_nodup : d.sets.Nodup
  nonempty : ∀ set ∈ d.sets, set ≠ []
  reached : ∀ set ∈ d.sets, ∃ word, (∀ c ∈ word, c ∈ alphabet) ∧ n.statesAfter word = set
  edges_nodup : d.edges.Nodup
  follows : ∀ e ∈ d.edges, e.symbol ∈ alphabet ∧ Follows n d e
  covered : ∀ i, ∀ c ∈ alphabet, Covered n d i c

end RegularLanguages.Subset.Discovery

namespace RegularLanguages.Nfa

open Subset Discovery

variable {n : Nfa} {settings : Subset.Settings} {d : Discovery}

theorem zero_mem_closure (n : Nfa) : 0 ∈ n.closure [0] :=
  n.subset_closure [0] (List.mem_singleton_self 0)

theorem Grounded.increasing_inferAlphabet (grounded : Grounded n) (fallback : List Char) :
    OrderedSet.Increasing (n.inferAlphabet fallback) := by
  rw [inferAlphabet]
  split
  · exact grounded.increasing
  · split
    · exact OrderedSet.increasing_ofList _
    · exact OrderedSet.increasing_ofList _

theorem increasing_inferAlphabet (wf : WellFormed n) (fallback : List Char) :
    OrderedSet.Increasing (n.inferAlphabet fallback) :=
  wf.toGrounded.increasing_inferAlphabet fallback

theorem Grounded.canonical {alphabet done : List Char} {source : Nat} {set : List Nat}
    (grounded : Grounded n) (h : Exploring n alphabet source done d) (mem : set ∈ d.sets) :
    OrderedSet.Increasing set ∧ ∀ q ∈ set, q < n.size := by
  obtain ⟨word, -, rfl⟩ := h.reached set mem
  exact ⟨n.increasing_statesAfter word, fun q => grounded.statesAfter_lt⟩

theorem exploring_length_lt {alphabet done : List Char} {source : Nat} (grounded : Grounded n)
    (h : Exploring n alphabet source done d) : d.sets.length < 2 ^ n.size := by
  apply length_lt_two_pow h.sets_nodup h.nonempty
  · exact fun set mem => (grounded.canonical h mem).1
  · exact fun set mem => (grounded.canonical h mem).2

theorem exploring_start (n : Nfa) (alphabet : List Char) :
    Exploring n alphabet 0 [] ⟨[n.closure [0]], []⟩ where
  start := rfl
  sets_nodup := List.nodup_singleton _
  nonempty := by
    intro set mem
    rw [List.mem_singleton.1 mem]
    exact List.ne_nil_of_mem n.zero_mem_closure
  reached := fun set mem => ⟨[], by simp, (List.mem_singleton.1 mem).symm⟩
  edges_nodup := List.nodup_nil
  follows := fun e edge => absurd edge List.not_mem_nil
  sources := fun e edge => absurd edge List.not_mem_nil
  before := fun i lt => absurd lt (Nat.not_lt_zero i)
  current := fun c mem => absurd mem List.not_mem_nil

theorem Grounded.discovered (grounded : Grounded n) (ok : n.discover settings = .ok d) :
    Discovered n (n.inferAlphabet settings.fallback) d := by
  have inv : Invariant n (n.inferAlphabet settings.fallback) settings.limit _ :=
    invariant_exploring (grounded.increasing_inferAlphabet settings.fallback)
  obtain ⟨last, final, bound⟩ := inv.explore (exploring_start n _) ok
  have behind : d.sets.length ≤ last := by
    rcases bound with behind | rounds
    · exact behind
    · have counted := exploring_length_lt grounded final
      rw [rounds, Nat.zero_add]
      exact Nat.le_of_lt counted
  refine ⟨final.start, final.sets_nodup, final.nonempty, final.reached, final.edges_nodup,
    final.follows, fun i c mem => ?_⟩
  by_cases lt : i < last
  · exact final.before i lt c mem
  · intro set found
    rw [List.getElem?_eq_none (by omega)] at found
    cases found

theorem discovered_of_discover (wf : WellFormed n) (ok : n.discover settings = .ok d) :
    Discovered n (n.inferAlphabet settings.fallback) d := wf.discovered ok

end RegularLanguages.Nfa
