import RegularLanguages.Proofs.Nfa.Discovery
import RegularLanguages.Proofs.Nfa.Limit

/-! # Determinization keeps the language over the alphabet

The automaton of the found sets is well-formed.  A word over the alphabet leads
to the state of the set that it leads to, and nowhere if that set is empty
(`run_toDfa`); words with other characters lead nowhere.  So the
deterministic automaton accepts the words over the alphabet that the automaton
with free choice accepts (`accepts_determinize`), and every state is reached. -/
set_option autoImplicit false
namespace RegularLanguages.Nfa

open Subset Discovery

variable {n : Nfa} {settings : Subset.Settings} {d : Dfa} {found : Discovery}
  {alphabet word u v : List Char} {i : Nat}

theorem determinize_ok (ok : n.determinize settings = .ok d) :
    ∃ found, n.discover settings = .ok found ∧
      d = found.toDfa n (n.inferAlphabet settings.fallback) := by
  rw [determinize] at ok
  split at ok
  next found discovered => exact ⟨found, discovered, (Except.ok.inj ok).symm⟩
  next => cases ok

/-! ## The automaton of the found sets -/

theorem numbered_injective {letter : String} {i j : Nat}
    (same : letter ++ i.repr = letter ++ j.repr) : i = j := by
  have digits : i.repr = j.repr := (String.append_right_inj letter).1 same
  rw [← Nat.ofDigitChars_ten_toDigits (n := i), ← Nat.toList_repr, digits, Nat.toList_repr,
    Nat.ofDigitChars_ten_toDigits]

theorem idOf_toDfa (lt : i < found.sets.length) :
    (found.toDfa n alphabet).idOf i = "S" ++ i.repr := by
  simp [Dfa.idOf, toDfa, lt]

theorem isAccepting_toDfa {set : List Nat} (there : found.sets[i]? = some set) :
    (found.toDfa n alphabet).isAccepting i = n.acceptsSome set := by
  simp [Dfa.isAccepting, toDfa, there]

theorem wellFormed_toDfa (h : Discovered n alphabet found)
    (increasing : OrderedSet.Increasing alphabet) :
    Dfa.WellFormed (found.toDfa n alphabet) := by
  have positions : ∀ {i j : Nat} {set : List Nat}, found.sets[i]? = some set →
      found.sets[j]? = some set → i = j := by
    intro i j set first second
    obtain ⟨lt, -⟩ := List.getElem?_eq_some_iff.1 first
    exact (List.getElem?_inj lt h.sets_nodup).1 (first.trans second.symm)
  refine
    { size_pos := ?_
      ids_nodup := ?_
      edges_nodup := h.edges_nodup
      ends := ?_
      deterministic := ?_
      increasing := increasing
      symbols := fun e edge => (h.follows e edge).1 }
  · rw [size_toDfa]
    exact (List.getElem?_eq_some_iff.1 h.start).1
  · refine List.pairwise_iff_getElem.2 fun i j _ _ lt same => ?_
    simp only [toDfa, List.getElem_map, List.getElem_mapIdx] at same
    exact absurd (numbered_injective same) (Nat.ne_of_lt lt)
  · intro e edge
    obtain ⟨-, set, source, -, target⟩ := h.follows e edge
    rw [size_toDfa]
    exact ⟨(List.getElem?_eq_some_iff.1 source).1, (List.getElem?_eq_some_iff.1 target).1⟩
  · intro e edge f other sources symbols
    obtain ⟨-, set, source, -, target⟩ := h.follows e edge
    obtain ⟨-, set', source', -, target'⟩ := h.follows f other
    rw [sources] at source
    rw [symbols] at target
    obtain rfl : set = set' := Option.some.inj (source.symm.trans source')
    exact positions target target'

theorem successor_toDfa (h : Discovered n alphabet found)
    (increasing : OrderedSet.Increasing alphabet) {c : Char} (mem : c ∈ alphabet)
    {set : List Nat} (there : found.sets[i]? = some set) :
    (n.step c set = [] ∧ (found.toDfa n alphabet).successor i c = none) ∨
      (n.step c set ≠ [] ∧ ∃ j, (found.toDfa n alphabet).successor i c = some j ∧
        found.sets[j]? = some (n.closure (n.step c set))) := by
  have det := (wellFormed_toDfa h increasing).det
  have edgeLeads : ∀ {j : Nat}, ⟨i, c, j⟩ ∈ found.edges →
      n.step c set ≠ [] ∧ found.sets[j]? = some (n.closure (n.step c set)) := by
    intro j edge
    obtain ⟨-, other, source, leads, target⟩ := h.follows _ edge
    obtain rfl : other = set := Option.some.inj (source.symm.trans there)
    exact ⟨leads, target⟩
  by_cases leads : n.step c set = []
  · refine .inl ⟨leads, ?_⟩
    cases successor : (found.toDfa n alphabet).successor i c with
    | none => rfl
    | some j => exact absurd leads (edgeLeads (Dfa.mem_edges_of_successor successor)).1
  · obtain ⟨j, edge⟩ := h.covered i c mem set there leads
    exact .inr ⟨leads, j, det.successor_eq_some_iff.2 edge, (edgeLeads edge).2⟩

/-- A word over the alphabet leads to the number of the set that it leads to,
and nowhere if that set is empty. -/
theorem run_toDfa (h : Discovered n alphabet found)
    (increasing : OrderedSet.Increasing alphabet) (allowed : ∀ c ∈ word, c ∈ alphabet) :
    (n.statesAfter word = [] ∧ (found.toDfa n alphabet).run 0 word = none) ∨
      (n.statesAfter word ≠ [] ∧ ∃ i, (found.toDfa n alphabet).run 0 word = some i ∧
        found.sets[i]? = some (n.statesAfter word)) := by
  induction word using List.reverseRecOn with
  | nil => exact .inr ⟨List.ne_nil_of_mem n.zero_mem_closure, 0, rfl, h.start⟩
  | append_singleton word c ih =>
      have overWord : ∀ b ∈ word, b ∈ alphabet := fun b mem =>
        allowed b (List.mem_append_left [c] mem)
      have known : c ∈ alphabet :=
        allowed c (List.mem_append_right word (List.mem_singleton_self c))
      rw [statesAfter_append_singleton, Dfa.run_append_singleton, closure_eq_nil]
      rcases ih overWord with ⟨empty, nowhere⟩ | ⟨-, i, run, there⟩
      · left
        rw [empty, nowhere]
        exact ⟨rfl, rfl⟩
      · rw [run, Option.bind_some, Ne, closure_eq_nil]
        exact successor_toDfa h increasing known there

theorem run_toDfa_eq_none_iff (h : Discovered n alphabet found)
    (increasing : OrderedSet.Increasing alphabet) (allowed : ∀ c ∈ word, c ∈ alphabet) :
    (found.toDfa n alphabet).run 0 word = none ↔ n.statesAfter word = [] := by
  rcases run_toDfa h increasing allowed with ⟨empty, nowhere⟩ | ⟨nonempty, i, run, -⟩
  · exact iff_of_true nowhere empty
  · refine iff_of_false ?_ nonempty
    rw [run]
    exact Option.some_ne_none i

theorem run_toDfa_eq_some_iff (h : Discovered n alphabet found)
    (increasing : OrderedSet.Increasing alphabet) (allowed : ∀ c ∈ word, c ∈ alphabet) :
    (found.toDfa n alphabet).run 0 word = some i ↔ found.sets[i]? = some (n.statesAfter word) := by
  rcases run_toDfa h increasing allowed with ⟨empty, nowhere⟩ | ⟨-, j, run, there⟩
  · rw [nowhere, empty]
    exact iff_of_false (Option.some_ne_none i).symm
      fun set => h.nonempty [] (List.mem_of_getElem? set) rfl
  · rw [run, Option.some_inj]
    constructor
    · rintro rfl
      exact there
    · intro same
      obtain ⟨lt, -⟩ := List.getElem?_eq_some_iff.1 there
      exact (List.getElem?_inj lt h.sets_nodup).1 (there.trans same.symm)

theorem run_toDfa_eq_iff (h : Discovered n alphabet found)
    (increasing : OrderedSet.Increasing alphabet) (allowed : ∀ c ∈ u, c ∈ alphabet)
    (allowed' : ∀ c ∈ v, c ∈ alphabet) :
    (found.toDfa n alphabet).run 0 u = (found.toDfa n alphabet).run 0 v ↔
      n.statesAfter u = n.statesAfter v := by
  constructor
  · intro same
    cases run : (found.toDfa n alphabet).run 0 v with
    | none =>
        rw [run, run_toDfa_eq_none_iff h increasing allowed] at same
        rw [same, (run_toDfa_eq_none_iff h increasing allowed').1 run]
    | some i =>
        rw [run, run_toDfa_eq_some_iff h increasing allowed] at same
        rw [run_toDfa_eq_some_iff h increasing allowed'] at run
        exact Option.some.inj (same.symm.trans run)
  · intro same
    refine Option.ext fun i => ?_
    rw [run_toDfa_eq_some_iff h increasing allowed, same,
      run_toDfa_eq_some_iff h increasing allowed']

/-! ## Determinization -/

theorem Grounded.wellFormed_determinize (grounded : Grounded n)
    (ok : n.determinize settings = .ok d) : Dfa.WellFormed d := by
  obtain ⟨found, discovered, rfl⟩ := determinize_ok ok
  exact wellFormed_toDfa (grounded.discovered discovered) (grounded.increasing_inferAlphabet _)

theorem wellFormed_determinize (wf : WellFormed n) (ok : n.determinize settings = .ok d) :
    Dfa.WellFormed d := wf.toGrounded.wellFormed_determinize ok

theorem idOf_determinize (ok : n.determinize settings = .ok d) (lt : i < d.size) :
    d.idOf i = "S" ++ i.repr := by
  obtain ⟨found, -, rfl⟩ := determinize_ok ok
  rw [size_toDfa] at lt
  exact idOf_toDfa lt

theorem alphabet_determinize (ok : n.determinize settings = .ok d) :
    d.alphabet = n.inferAlphabet settings.fallback := by
  obtain ⟨found, -, rfl⟩ := determinize_ok ok
  rfl

/-- The deterministic automaton accepts the words over its alphabet that the
automaton with free choice accepts. -/
theorem accepts_determinize (wf : WellFormed n) (ok : n.determinize settings = .ok d) :
    d.accepts word = true ↔
      n.accepts word = true ∧ ∀ c ∈ word, c ∈ n.inferAlphabet settings.fallback := by
  have known := (wellFormed_determinize wf ok).symbols
  rw [alphabet_determinize ok] at known
  obtain ⟨found, discovered, rfl⟩ := determinize_ok ok
  have h := discovered_of_discover wf discovered
  have increasing := increasing_inferAlphabet wf settings.fallback
  rw [Dfa.accepts_eq_acceptsFrom, Dfa.acceptsFrom_iff, accepts_eq]
  constructor
  · rintro ⟨i, run, accepting⟩
    have allowed := Dfa.mem_alphabet_of_run known run
    have there := (run_toDfa_eq_some_iff h increasing allowed).1 run
    exact ⟨isAccepting_toDfa there ▸ accepting, allowed⟩
  · rintro ⟨accepted, allowed⟩
    rcases run_toDfa h increasing allowed with ⟨empty, -⟩ | ⟨-, i, run, there⟩
    · rw [empty] at accepted
      cases accepted
    · exact ⟨i, run, (isAccepting_toDfa there).trans accepted⟩

theorem exists_run_determinize (wf : WellFormed n) (ok : n.determinize settings = .ok d)
    (lt : i < d.size) :
    ∃ word, (∀ c ∈ word, c ∈ d.alphabet) ∧ d.run 0 word = some i ∧ n.statesAfter word ≠ [] := by
  obtain ⟨found, discovered, rfl⟩ := determinize_ok ok
  have h := discovered_of_discover wf discovered
  have increasing := increasing_inferAlphabet wf settings.fallback
  rw [size_toDfa] at lt
  obtain ⟨word, allowed, leads⟩ := h.reached _ (List.getElem_mem lt)
  have there : found.sets[i]? = some (n.statesAfter word) := by
    rw [leads, List.getElem?_eq_getElem lt]
  refine ⟨word, allowed, (run_toDfa_eq_some_iff h increasing allowed).2 there, ?_⟩
  rw [leads]
  exact h.nonempty _ (List.getElem_mem lt)

end RegularLanguages.Nfa
