import RegularLanguages.Proofs.Nfa.Position
import RegularLanguages.Proofs.Nfa.Thompson

/-! # Both automata of an expression recognize its language

Thompson's automaton accepts the words of the expression, in one state alone.  In
the automaton of positions every edge reads something, and it accepts the same
words. -/
set_option autoImplicit false
namespace RegularLanguages.Nfa

theorem thompson_accepts_language (r : Regex) :
    (∀ word, (thompson r).accepts word = true ↔ word ∈ r.language) ∧
      ∃ exit < (thompson r).size, ∀ q, (thompson r).isAccepting q = true ↔ q = exit := by
  refine ⟨fun word => accepts_thompson, (Fragment.ofRegex 1 r).exit, ?_, ?_⟩
  · rw [thompson_size]
    exact (Fragment.proper_ofRegex r 1).exit_mem.2
  · exact fun q => isAccepting_thompson

theorem hasEpsilon_eq_false_iff {n : Nfa} :
    n.hasEpsilon = false ↔ ∀ p q, ⟨p, .epsilon, q⟩ ∉ n.edges := by
  simp only [hasEpsilon, List.any_eq_false, beq_iff_eq]
  constructor
  · exact fun reads p q edge => reads _ edge rfl
  · rintro reads ⟨p, label, q⟩ edge rfl
    exact reads p q edge

theorem ofPositions_accepts_as_thompson (r : Regex) :
    (ofPositions r).hasEpsilon = false ∧
      ∀ word, (ofPositions r).accepts word = (thompson r).accepts word := by
  constructor
  · exact hasEpsilon_eq_false_iff.2 fun p q => epsilon_not_mem_ofPositions
  · intro word
    rw [Bool.eq_iff_iff, accepts_ofPositions, accepts_thompson]

end RegularLanguages.Nfa
