import RegularLanguages.Proofs.Dfa.LeastWord
import RegularLanguages.Proofs.Nfa.Worklist

/-! # How determinization numbers its states

Sets are taken in the order of their discovery and characters in that of the
alphabet, so each edge that the search adds comes after the others by its source
and then by its character.  Hence the first edge to a set with a given number or
beyond is the one that it was discovered by. -/
set_option autoImplicit false
namespace RegularLanguages.Subset.Discovery

variable {n : Nfa} {alphabet done rest : List Char} {limit : Option Nat} {source : Nat}
  {c : Char} {set : List Nat} {d m : Discovery}

namespace Exploring

theorem later (h : Exploring n alphabet source done d) (increasing : OrderedSet.Increasing alphabet)
    (whole : alphabet = done ++ c :: rest) :
    ∀ f ∈ d.edges, f.source < source ∨ f.source = source ∧ f.symbol ≤ c := by
  intro f edge
  rcases h.sources f edge with earlier | ⟨same, mem⟩
  · exact .inl earlier
  · exact .inr ⟨same, le_of_lt (lt_of_mem_done increasing whole mem)⟩

theorem target_lt (h : Exploring n alphabet source done d) : ∀ f ∈ d.edges,
    f.target < d.sets.length := by
  intro f edge
  obtain ⟨-, set, -, -, target⟩ := h.follows f edge
  exact (List.getElem?_eq_some_iff.1 target).1

theorem breadthFirst_arrive (h : Exploring n alphabet source done d)
    (increasing : OrderedSet.Increasing alphabet) (whole : alphabet = done ++ c :: rest)
    (layers : Dfa.BreadthFirst d.edges d.sets.length) (lt : source < d.sets.length)
    (ok : d.arrive limit source c set = .ok m) : Dfa.BreadthFirst m.edges m.sets.length := by
  have later := h.later increasing whole
  rw [Discovery.arrive] at ok
  split at ok
  next target _ =>
    obtain rfl := Except.ok.inj ok
    exact layers.cons (e := ⟨source, c, target⟩) later
  next =>
    split at ok
    next => cases ok
    next =>
      obtain rfl := Except.ok.inj ok
      rw [List.length_append, List.length_singleton]
      exact layers.discover (e := ⟨source, c, d.sets.length⟩) later h.target_lt lt rfl

end Exploring

theorem invariant_breadthFirst (increasing : OrderedSet.Increasing alphabet) :
    Invariant n alphabet limit fun source done d =>
      Exploring n alphabet source done d ∧ Dfa.BreadthFirst d.edges d.sets.length where
  skip _ h found nowhere := ⟨h.1.skip found nowhere, h.2⟩
  arrive := by
    intro source done c rest set d m whole h found leads ok
    have lt := (List.getElem?_eq_some_iff.1 found).1
    constructor
    · exact (invariant_exploring increasing).arrive whole h.1 found leads ok
    · exact h.1.breadthFirst_arrive increasing whole h.2 lt ok
  next h := ⟨h.1.next, h.2⟩

end RegularLanguages.Subset.Discovery

namespace RegularLanguages.Nfa

open Subset Worklist

variable {n : Nfa} {settings : Subset.Settings} {d : Dfa}

theorem breadthFirst_determinize (grounded : Grounded n) (ok : n.determinize settings = .ok d) :
    Dfa.BreadthFirst d.edges d.size := by
  obtain ⟨found, discovered, rfl⟩ := determinize_ok ok
  have increasing := grounded.increasing_inferAlphabet settings.fallback
  have alone : Dfa.BreadthFirst [] 1 := by
    intro j pos lt
    omega
  obtain ⟨last, ⟨-, layers⟩, -⟩ :=
    (Discovery.invariant_breadthFirst increasing).explore ⟨exploring_start n _, alone⟩
      discovered
  rwa [size_toDfa]

/-- The automaton that the loop ends with names its states by their numbers.  Some
word leads to each of them, and the numbers are in the order of the least words
that do. -/
theorem states_numbered_by_least_word (grounded : Grounded n) (fallback : List Char) :
    ∃ taken w d, Reaches n (n.inferAlphabet fallback) none taken w ∧ w.queue = [] ∧
      w.dfa.bare = d ∧ n.determinize ⟨fallback, none⟩ = .ok d ∧
      (∀ i < d.size, d.idOf i = "S" ++ i.repr) ∧
      (∀ i < d.size, ∃ u, Dfa.LeastWord d i u) ∧
      ∀ i j u v, i < j → j < d.size → Dfa.LeastWord d i u → Dfa.LeastWord d j v →
        List.Shortlex (· < ·) u v := by
  obtain ⟨taken, w, reaches, empty, ok⟩ := exists_worklist grounded fallback
  have layers := breadthFirst_determinize grounded ok
  have det := (grounded.wellFormed_determinize ok).det
  exact ⟨taken, w, _, reaches, empty, rfl, ok, fun _ => idOf_determinize ok,
    fun _ => layers.exists_leastWord det, fun _ _ _ _ => layers.leastWord_lt det⟩

theorem states_numbered_by_least_word_untold : Grounded untold ∧
    ∃ d u v, untold.determinize ⟨[], none⟩ = .ok d ∧ d.idOf 1 = "S1" ∧
      Dfa.LeastWord d 0 u ∧ Dfa.LeastWord d 1 v ∧ List.Shortlex (· < ·) u v := by
  obtain ⟨-, -, d, -, -, -, ok, names, words, order⟩ :=
    states_numbered_by_least_word grounded_untold []
  have size := size_determinize_untold ok
  obtain ⟨u, least⟩ := words 0 (by omega)
  obtain ⟨v, least'⟩ := words 1 (by omega)
  exact ⟨grounded_untold, d, u, v, ok, names 1 (by omega), least, least',
    order 0 1 u v Nat.one_pos (by omega) least least'⟩

end RegularLanguages.Nfa
