import RegularLanguages.Nfa.Worklist
import RegularLanguages.Proofs.Dfa.Indexed
import RegularLanguages.Proofs.Nfa.Built

/-! # The worklist loop ends

The loop keeps step with the search by numbers (`Tracks`): the sets that have been
taken and those that wait are the sets that are found, the index leads to their
positions, and the automaton is the one that they make up so far.  So no set is
met twice or is empty, and there are fewer turns than sets of states.  The loop
ends with what the search ends with (`exists_ends`). -/
set_option autoImplicit false
namespace RegularLanguages.Subset.Worklist

open Discovery

variable {n : Nfa} {alphabet done rest : List Char} {limit : Option Nat} {source target : Nat}
  {c : Char} {set : List Nat} {taken waiting : List (List Nat)} {d : Discovery} {w : Worklist}

structure Tracks (n : Nfa) (alphabet : List Char) (taken : List (List Nat)) (d : Discovery)
    (w : Worklist) : Prop where
  queue : taken ++ w.queue = d.sets
  numbers : ∀ set, w.numbers[set]? = d.sets.idxOf? set
  count : w.numbers.size = d.sets.length
  dfa : Dfa.Represents w.dfa (d.toDfa n alphabet)

inductive InStep (n : Nfa) (alphabet : List Char) (taken : List (List Nat)) :
    Except StateLimitExceeded Discovery → Except Stop Worklist → Prop where
  | ok {d : Discovery} {w : Worklist} :
      Tracks n alphabet taken d w → InStep n alphabet taken (.ok d) (.ok w)
  | error {e : StateLimitExceeded} : InStep n alphabet taken (.error e) (.error (.limit e))

/-! ## One character -/

theorem state?_toDfa_next (d : Discovery) (n : Nfa) (alphabet : List Char) :
    (d.toDfa n alphabet).state? ("S" ++ d.sets.length.repr) = none := by
  rw [← Option.not_isSome_iff_eq_none, Dfa.state?_isSome_iff, Dfa.mem_ids]
  intro ⟨q, lt, same⟩
  rw [Nfa.size_toDfa] at lt
  rw [Nfa.idOf_toDfa lt] at same
  exact Nat.ne_of_lt lt (Nfa.numbered_injective same)

theorem toDfa_concat (d : Discovery) (n : Nfa) (alphabet : List Char) (set : List Nat) :
    (⟨d.sets ++ [set], d.edges⟩ : Discovery).toDfa n alphabet =
      { d.toDfa n alphabet with
        states := (d.toDfa n alphabet).states ++
          [⟨"S" ++ d.sets.length.repr, n.acceptsSome set⟩] } := by
  simp [toDfa, List.mapIdx_concat]

namespace Tracks

theorem increasing (tracks : Tracks n alphabet taken d w) : OrderedSet.Increasing alphabet :=
  tracks.dfa.wellFormed.increasing

theorem enqueue (tracks : Tracks n alphabet taken d w) (new : set ∉ d.sets) :
    (w.enqueue n set).2 = d.sets.length ∧
      Tracks n alphabet taken ⟨d.sets ++ [set], d.edges⟩ (w.enqueue n set).1 := by
  obtain ⟨number, added⟩ :=
    tracks.dfa.addFresh (state?_toDfa_next d n alphabet) (n.acceptsSome set)
  rw [Nfa.size_toDfa] at number
  rw [← toDfa_concat] at added
  rw [← tracks.count] at number added
  have unknown : w.numbers[set]? = none := by
    rw [tracks.numbers, List.idxOf?_eq_none_iff]
    exact new
  refine ⟨number.trans tracks.count, ?_, fun other => ?_, ?_, added⟩
  · rw [← tracks.queue, List.append_assoc]
    rfl
  · rw [Distinct.idxOf?_concat, ← tracks.numbers, ← tracks.count]
    simp only [Worklist.enqueue, number, Std.HashMap.getElem?_insert]
    by_cases same : set = other
    · subst same
      simp [unknown]
    · simp [same]
  · have notMem : set ∉ w.numbers := by
      rw [Std.HashMap.mem_iff_isSome_getElem?, unknown]
      exact Bool.false_ne_true
    simp [Worklist.enqueue, Std.HashMap.size_insert, notMem, tracks.count]

theorem follow (tracks : Tracks n alphabet taken d w) (known : c ∈ alphabet)
    (from_lt : source < d.sets.length) (to_lt : target < d.sets.length)
    (fresh : ∀ e ∈ d.edges, source = e.source → c ≠ e.symbol) :
    ∃ extended, w.dfa.addTransition ⟨source, c, target⟩ = (extended, none) ∧
      Tracks n alphabet taken ⟨d.sets, ⟨source, c, target⟩ :: d.edges⟩
        { w with dfa := extended } := by
  have linked : (d.toDfa n alphabet).addTransition ⟨source, c, target⟩ =
      .ok ((d.toDfa n alphabet).link ⟨source, c, target⟩) :=
    Dfa.addTransition_of_fresh tracks.increasing known fresh
  have size : (d.toDfa n alphabet).size = d.sets.length := Nfa.size_toDfa
  rw [← size] at from_lt to_lt
  rcases tracks.dfa.addTransition_cases (e := ⟨source, c, target⟩) from_lt to_lt with
    ⟨extended, after, added, same, represents, -⟩ | ⟨conflict, -, refused⟩
  · obtain rfl := Except.ok.inj (linked.symm.trans same)
    exact ⟨extended, added, tracks.queue, tracks.numbers, tracks.count, represents⟩
  · cases linked.symm.trans refused

theorem arrive (tracks : Tracks n alphabet taken d w) (limit : Option Nat) (set : List Nat)
    (known : c ∈ alphabet) (from_lt : source < d.sets.length)
    (fresh : ∀ e ∈ d.edges, source = e.source → c ≠ e.symbol) :
    InStep n alphabet taken (d.arrive limit source c set) (w.arrive n limit source c set) := by
  rw [Discovery.arrive, Worklist.arrive, meet, tracks.numbers]
  cases found : d.sets.idxOf? set with
  | some target =>
      obtain ⟨to_lt, -, -⟩ := List.idxOf?_eq_some_iff.1 found
      obtain ⟨extended, added, followed⟩ := tracks.follow known from_lt to_lt fresh
      simp only [added]
      exact .ok followed
  | none =>
      have bound : w.full limit = d.full limit := by
        cases limit with
        | none => rfl
        | some limit => rw [Worklist.full, Discovery.full, tracks.count]
      rw [bound]
      cases d.full limit with
      | some e => exact .error
      | none =>
          obtain ⟨number, enqueued⟩ := tracks.enqueue (List.idxOf?_eq_none_iff.1 found)
          have longer : (d.sets ++ [set]).length = d.sets.length + 1 := by simp
          have last : d.sets.length < (d.sets ++ [set]).length := by omega
          obtain ⟨extended, added, followed⟩ :=
            enqueued.follow known (Nat.lt_trans from_lt last) last fresh
          simp only [number, added]
          exact .ok followed

/-! ## One set -/

theorem expand (tracks : Tracks n alphabet taken d w) (limit : Option Nat)
    (exploring : Exploring n alphabet source done d)
    (whole : alphabet = done ++ rest) (found : d.sets[source]? = some set) :
    InStep n alphabet taken (Discovery.expand n limit source set rest d)
      (Worklist.expand n limit source set rest w) := by
  have inv : Invariant n alphabet limit (Exploring n alphabet) :=
    invariant_exploring tracks.increasing
  induction rest generalizing done d w with
  | nil => exact .ok tracks
  | cons c rest ih =>
      have wholeNext : alphabet = (done ++ [c]) ++ rest := by simpa using whole
      have known : c ∈ alphabet := whole ▸ List.mem_append_right done List.mem_cons_self
      rw [Discovery.expand, Worklist.expand]
      cases leads : n.step c set with
      | nil => exact ih tracks (inv.skip whole exploring found leads) wholeNext found
      | cons p more =>
          have somewhere : n.step c set ≠ [] := leads ▸ List.cons_ne_nil p more
          have from_lt := (List.getElem?_eq_some_iff.1 found).1
          have arrived := tracks.arrive limit (n.closure (n.step c set)) known from_lt
            (exploring.fresh (not_mem_done tracks.increasing whole))
          simp only [← leads]
          generalize first : d.arrive limit source c (n.closure (n.step c set)) = x at arrived ⊢
          generalize w.arrive n limit source c (n.closure (n.step c set)) = y at arrived ⊢
          cases arrived with
          | error => exact .error
          | ok kept =>
              obtain ⟨sets, -⟩ := arrive_ok first
              have still := getElem?_mono (sets ▸ Distinct.prefix_add d.sets _) found
              exact ih kept (inv.arrive whole exploring found somewhere first) wholeNext still

theorem getElem?_taken (tracks : Tracks n alphabet taken d w) (waits : w.queue = set :: waiting) :
    d.sets[taken.length]? = some set := by
  rw [← tracks.queue, waits]
  simp

/-- While a set waits the next turn takes it, and either the limit is met or the
worklist keeps step with the search. -/
theorem pop_cases (tracks : Tracks n alphabet taken d w) (limit : Option Nat)
    (exploring : Exploring n alphabet taken.length [] d) (waits : w.queue = set :: waiting) :
    (∃ m next, Discovery.expand n limit taken.length set alphabet d = .ok m ∧
        w.pop n alphabet limit = some (set, .ok next) ∧
        Exploring n alphabet (taken ++ [set]).length [] m ∧
        Tracks n alphabet (taken ++ [set]) m next) ∨
      ∃ e, Discovery.expand n limit taken.length set alphabet d = .error e ∧
        w.pop n alphabet limit = some (set, .error (.limit e)) := by
  have found := tracks.getElem?_taken waits
  have number : w.numbers[set]? = some taken.length := by
    rw [tracks.numbers, Distinct.idxOf?_eq_some_iff exploring.sets_nodup]
    exact found
  have moved : Tracks n alphabet (taken ++ [set]) d { w with queue := waiting } := by
    refine ⟨?_, tracks.numbers, tracks.count, tracks.dfa⟩
    rw [← tracks.queue, waits, List.append_assoc]
    rfl
  have popped : w.pop n alphabet limit = some (set,
      Worklist.expand n limit taken.length set alphabet { w with queue := waiting }) := by
    simp only [Worklist.pop, waits, number]
  have step := moved.expand limit exploring (List.nil_append alphabet).symm found
  generalize expanded : Discovery.expand n limit taken.length set alphabet d = x at step
  generalize Worklist.expand n limit taken.length set alphabet _ = y at step popped
  cases step with
  | error => exact .inr ⟨_, rfl, popped⟩
  | ok kept =>
      have after := (invariant_exploring tracks.increasing).turn exploring found expanded
      refine .inl ⟨_, _, rfl, popped, ?_, kept⟩
      rwa [List.length_append, List.length_singleton]

end Tracks

/-! ## The loop -/

theorem tracks_start (n : Nfa) (increasing : OrderedSet.Increasing alphabet) :
    Tracks n alphabet [] ⟨[n.closure [0]], []⟩ (start n alphabet) where
  queue := rfl
  numbers := by
    intro set
    simp only [start, Std.HashMap.getElem?_insert, Std.HashMap.getElem?_empty]
    by_cases same : n.closure [0] = set
    · simp [same, Dfa.Indexed.new, List.idxOf?]
    · simp [same, List.idxOf?]
  count := Std.HashMap.size_insert.trans (by simp)
  dfa := Dfa.represents_marked increasing "S0" (n.acceptsSome (n.closure [0]))

theorem Reaches.tracks (increasing : OrderedSet.Increasing alphabet)
    (reaches : Reaches n alphabet limit taken w) :
    ∃ d, Exploring n alphabet taken.length [] d ∧ Tracks n alphabet taken d w := by
  induction reaches with
  | start => exact ⟨_, Nfa.exploring_start n alphabet, tracks_start n increasing⟩
  | @take taken w next set _ popped ih =>
      obtain ⟨d, exploring, tracks⟩ := ih
      cases waits : w.queue with
      | nil =>
          rw [Worklist.pop, waits] at popped
          cases popped
      | cons first waiting =>
          rcases tracks.pop_cases limit exploring waits with
            ⟨m, after, -, same, exploring', tracks'⟩ | ⟨e, -, same⟩
          · cases same.symm.trans popped
            exact ⟨m, exploring', tracks'⟩
          · cases same.symm.trans popped

theorem Reaches.exists_ends {rounds : Nat} (grounded : Nfa.Grounded n)
    (reaches : Reaches n alphabet limit taken w) (tracks : Tracks n alphabet taken d w)
    (exploring : Exploring n alphabet taken.length [] d)
    (enough : 2 ^ n.size ≤ taken.length + rounds) :
    ∃ all last, Reaches n alphabet limit all last ∧ Ends n alphabet limit last
      ((Discovery.explore n alphabet limit rounds taken.length d).map (toDfa · n alphabet)) := by
  induction rounds generalizing taken w d with
  | zero =>
      -- As many sets as there are subsets cannot have been taken.
      have fewer := Nfa.exploring_length_lt grounded exploring
      rw [← tracks.queue, List.length_append] at fewer
      omega
  | succ rounds ih =>
      rw [Discovery.explore]
      cases waits : w.queue with
      | nil =>
          have behind : d.sets[taken.length]? = none := by simp [← tracks.queue, waits]
          rw [behind]
          refine ⟨taken, w, reaches, ?_⟩
          have ends : Ends n alphabet limit w (.ok w.dfa.bare) := .done waits
          rwa [tracks.dfa.bare] at ends
      | cons set waiting =>
          simp only [tracks.getElem?_taken waits]
          rcases tracks.pop_cases limit exploring waits with
            ⟨m, next, expanded, popped, exploring', tracks'⟩ | ⟨e, expanded, popped⟩
          · have longer : (taken ++ [set]).length = taken.length + 1 := by simp
            have onward := ih (reaches.take popped) tracks' exploring' (by omega)
            rw [longer] at onward
            rwa [expanded]
          · rw [expanded]
            exact ⟨taken, w, reaches, .cut popped⟩

end RegularLanguages.Subset.Worklist

namespace RegularLanguages.Nfa

open Subset Worklist

variable {n : Nfa} {fallback : List Char} {taken : List (List Nat)} {w : Worklist}

theorem exists_ends (grounded : Grounded n) (settings : Subset.Settings) :
    ∃ taken w, Reaches n (n.inferAlphabet settings.fallback) settings.limit taken w ∧
      Ends n (n.inferAlphabet settings.fallback) settings.limit w (n.determinize settings) := by
  have increasing := grounded.increasing_inferAlphabet settings.fallback
  have whole : n.determinize settings = (n.discover settings).map
      (Discovery.toDfa · n (n.inferAlphabet settings.fallback)) := by
    rw [determinize]
    cases n.discover settings <;> rfl
  rw [whole]
  exact Reaches.start.exists_ends grounded (tracks_start n increasing)
    (exploring_start n _) (Nat.le_add_left _ _)

theorem exists_worklist (grounded : Grounded n) (fallback : List Char) :
    ∃ taken w, Reaches n (n.inferAlphabet fallback) none taken w ∧ w.queue = [] ∧
      n.determinize ⟨fallback, none⟩ = .ok w.dfa.bare := by
  obtain ⟨taken, w, reaches, ends⟩ := exists_ends grounded ⟨fallback, none⟩
  obtain ⟨d, ok⟩ := exists_determinize n fallback
  rw [ok] at ends ⊢
  cases ends with
  | done empty => exact ⟨taken, w, reaches, empty, rfl⟩

theorem exists_pop (grounded : Grounded n)
    (reaches : Reaches n (n.inferAlphabet fallback) none taken w) (more : w.queue ≠ []) :
    ∃ set next, w.pop n (n.inferAlphabet fallback) none = some (set, .ok next) := by
  obtain ⟨d, exploring, tracks⟩ := reaches.tracks (grounded.increasing_inferAlphabet fallback)
  obtain ⟨set, waiting, waits⟩ := List.exists_cons_of_ne_nil more
  obtain ⟨m, search⟩ := Discovery.cutsOff_expand n taken.length set (n.inferAlphabet fallback) d
  rcases tracks.pop_cases none exploring waits with
    ⟨-, next, -, popped, -, -⟩ | ⟨e, refused, -⟩
  · exact ⟨set, next, popped⟩
  · cases search.unlimited.symm.trans refused

/-- The sets that the loop has taken and those that wait are different, not empty,
and sets of states in their written form, so there are fewer turns than subsets.
Without a limit a set that waits is always taken, so the loop ends, with the
automaton that determinization gives.  That has a state for each set that was
taken, and of each state one transition at most for a character. -/
theorem worklist_terminates (grounded : Grounded n) (fallback : List Char) :
    (∀ taken w, Reaches n (n.inferAlphabet fallback) none taken w →
      (taken ++ w.queue).Nodup ∧ [] ∉ taken ++ w.queue ∧
      (∀ set ∈ taken ++ w.queue, OrderedSet.Increasing set ∧ ∀ q ∈ set, q < n.size) ∧
      taken.length ≤ 2 ^ n.size - 1 ∧
      (w.queue ≠ [] →
        ∃ set next, w.pop n (n.inferAlphabet fallback) none = some (set, .ok next))) ∧
    ∃ taken w, Reaches n (n.inferAlphabet fallback) none taken w ∧ w.queue = [] ∧
      n.determinize ⟨fallback, none⟩ = .ok w.dfa.bare ∧
      w.dfa.bare.size = taken.length ∧
      w.dfa.bare.size ≤ 2 ^ n.size - 1 ∧
      ∀ q < w.dfa.bare.size,
        (w.dfa.bare.successors q).length ≤ (n.inferAlphabet fallback).length := by
  have increasing := grounded.increasing_inferAlphabet fallback
  constructor
  · intro taken w reaches
    obtain ⟨d, exploring, tracks⟩ := reaches.tracks increasing
    have fewer := exploring_length_lt grounded exploring
    have counted := congrArg List.length tracks.queue
    rw [List.length_append] at counted
    rw [tracks.queue]
    refine ⟨exploring.sets_nodup, ?_, fun set => grounded.canonical exploring, by omega,
      exists_pop grounded reaches⟩
    exact fun mem => exploring.nonempty [] mem rfl
  · obtain ⟨taken, w, reaches, empty, ok⟩ := exists_worklist grounded fallback
    obtain ⟨d, exploring, tracks⟩ := reaches.tracks increasing
    have fewer := exploring_length_lt grounded exploring
    have sets : taken = d.sets := by simpa [empty] using tracks.queue
    have size : w.dfa.bare.size = taken.length := by
      rw [tracks.dfa.bare, size_toDfa, sets]
    refine ⟨taken, w, reaches, empty, ok, size, ?_, fun q _ => ?_⟩
    · rw [size, sets]
      omega
    · rw [tracks.dfa.bare]
      exact tracks.dfa.wellFormed.length_successors_le q

/-- An edge for a character that the alphabet has not been told of. -/
def untold : Nfa := (cycle (.symbol 'b')).link ⟨2, .symbol 'c', 0⟩

theorem grounded_untold : Grounded untold :=
  (built_cycle _).wellFormed.toGrounded.link (by decide) (by decide)

theorem size_determinize_untold {d : Dfa} (ok : untold.determinize ⟨[], none⟩ = .ok d) :
    d.size = 2 := by
  have two : (untold.determinize ⟨[], none⟩).map Dfa.size = .ok 2 := by cbv
  rw [ok] at two
  exact Except.ok.inj two

theorem worklist_terminates_untold : Grounded untold ∧
    ∃ taken w, Reaches untold ['a', 'b'] none taken w ∧ w.queue = [] ∧ taken.length = 2 ∧
      untold.determinize ⟨[], none⟩ = .ok w.dfa.bare := by
  obtain ⟨-, taken, w, reaches, empty, ok, size, -, -⟩ := worklist_terminates grounded_untold []
  have turns : taken.length = 2 := size.symm.trans (size_determinize_untold ok)
  exact ⟨grounded_untold, taken, w, reaches, empty, turns, ok⟩

end RegularLanguages.Nfa
