import RegularLanguages.Proofs.Dfa.Elimination
import RegularLanguages.Proofs.Nfa.Minimal
import RegularLanguages.Proofs.Regex.EmptyWord

/-! # Automata of expressions have no dead states

An expression describes some word, and in both of its automata every state leads to
acceptance.  So does every state of the deterministic automaton and of the
minimized one, unless there is no character to read.  Then the start is alone,
and no expression is found for it exactly if the empty word does not match.
`nullable` tells this wherever every choice has a branch; a choice without branches
matches the empty word, although `nullable` answers false on it. -/
set_option autoImplicit false
namespace RegularLanguages.Nfa.Builder

variable {b : Builder} {r : Regex} {settings : Subset.Settings} {fallback alphabet : List Char}
  {d e m : Dfa}

/-- Every state leads to acceptance if there is a character to read.  No expression
is found exactly if there is none and the empty word does not match. -/
structure Alive (r : Regex) (alphabet : List Char) (e : Dfa) : Prop where
  productive : alphabet ≠ [] → ∀ q < e.size, ∃ word, e.acceptsFrom q word = true
  fails_iff : e.toRegex? = none ↔ alphabet = [] ∧ [] ∉ r.language

theorem Alive.not_nullable_of_fails (alive : Alive r alphabet e) (fails : e.toRegex? = none) :
    r.nullable = false := by
  apply Bool.eq_false_iff.2
  intro nullable
  exact (alive.fails_iff.1 fails).2 (Regex.nil_mem_language_of_nullable nullable)

theorem Alive.fails_iff_not_nullable (alive : Alive r alphabet e)
    (branched : ¬Regex.Subtree (.alt []) r) :
    e.toRegex? = none ↔ alphabet = [] ∧ r.nullable = false := by
  rw [alive.fails_iff, ← Regex.nullable_iff branched, Bool.not_eq_true]

/-- An automaton that accepts the words of an expression over an alphabet accepts
none exactly if the alphabet and the empty word are both missing. -/
theorem alive_of_productive (wf : Dfa.WellFormed e)
    (accepts : ∀ word, e.accepts word = true ↔ word ∈ r.language ∧ ∀ c ∈ word, c ∈ alphabet)
    (productive : alphabet ≠ [] → ∀ q < e.size, ∃ word, e.acceptsFrom q word = true) :
    Alive r alphabet e := by
  refine ⟨productive, ?_⟩
  rw [Dfa.toRegex?_eq_none_iff wf]
  constructor
  · intro rejects
    constructor
    · by_contra letters
      obtain ⟨word, accepted⟩ := productive letters 0 wf.size_pos
      rw [← Dfa.accepts_eq_acceptsFrom, rejects word] at accepted
      cases accepted
    · intro empty
      have accepted := (accepts []).2 ⟨empty, by simp⟩
      rw [rejects []] at accepted
      cases accepted
  · intro ⟨noCharacter, noEmptyWord⟩ word
    apply Bool.eq_false_iff.2
    intro accepted
    obtain ⟨described, allowed⟩ := (accepts word).1 accepted
    -- A word over no characters is the empty one.
    cases word with
    | nil => exact noEmptyWord described
    | cons c rest =>
        have known := allowed c List.mem_cons_self
        rw [noCharacter] at known
        cases known

theorem productive_minimize (wf : Dfa.WellFormed d) (ok : d.minimize = .ok m)
    (productive : ∀ q < d.size, ∃ word, d.acceptsFrom q word = true) :
    ∀ i < m.size, ∃ word, m.acceptsFrom i word = true := by
  intro i lt
  obtain ⟨q, ltQ, merged⟩ := Dfa.exists_mergedState wf ok lt
  obtain ⟨word, accepted⟩ := productive q ltQ
  refine ⟨word, ?_⟩
  have keeps : Dfa.Morphism d m d.mergedState := (Dfa.merged_minimize wf ok).morphism
  rw [← merged, keeps.acceptsFrom_eq wf.det ltQ]
  exact accepted

theorem Yields.accepts_iff (h : b.Yields r settings d m) (word : List Char) :
    d.accepts word = true ↔
      word ∈ r.language ∧ ∀ c ∈ word, c ∈ (b.build r).inferAlphabet settings.fallback := by
  rw [accepts_determinize_build h.determinized, inferAlphabet_build]

theorem Yields.alive (h : b.Yields r settings d m) :
    Alive r ((b.build r).inferAlphabet settings.fallback) d := by
  apply alive_of_productive h.wellFormed h.accepts_iff
  intro letters q lt
  rw [← alphabet_determinize h.determinized] at letters
  exact productive_determinize (wellFormed_build b r) (productive_build b r) h.determinized
    letters lt

theorem Yields.alive_minimized (h : b.Yields r settings d m) :
    Alive r ((b.build r).inferAlphabet settings.fallback) m := by
  apply alive_of_productive h.merged.wellFormed
  · intro word
    rw [h.accepts]
    exact h.accepts_iff word
  · intro letters
    exact productive_minimize h.wellFormed h.minimized (h.alive.productive letters)

/-- Without a limit both ways from an expression lead to a deterministic automaton
and a minimized one in which every state leads to acceptance, unless the inferred
alphabet is empty.  Finding an expression for either fails exactly if that
alphabet is empty and the empty word does not match.  An expression that is nullable
never fails so, and where every choice has a branch one that is not nullable fails
over the empty alphabet. -/
theorem no_dead_states (b : Builder) (r : Regex) (fallback : List Char) :
    ∃ d m, b.Yields r ⟨fallback, none⟩ d m ∧ ∀ e, e = d ∨ e = m →
      Alive r ((b.build r).inferAlphabet fallback) e ∧
      (e.toRegex? = none → r.nullable = false) ∧
      (¬Regex.Subtree (.alt []) r →
        (e.toRegex? = none ↔ (b.build r).inferAlphabet fallback = [] ∧ r.nullable = false)) := by
  obtain ⟨d, m, yields⟩ := exists_yields b r fallback
  refine ⟨d, m, yields, fun e which => ?_⟩
  have alive : Alive r ((b.build r).inferAlphabet fallback) e := by
    cases which with
    | inl determinized => exact determinized ▸ yields.alive
    | inr minimized => exact minimized ▸ yields.alive_minimized
  exact ⟨alive, alive.not_nullable_of_fails, alive.fails_iff_not_nullable⟩

/-- A choice without branches has no character and is not nullable, and yet there
is an expression for its automaton. -/
theorem choice_without_branches_has_expression :
    (thompson.build (.alt [])).inferAlphabet [] = [] ∧ Regex.nullable (.alt []) = false ∧
      ∃ d, (thompson.build (.alt [])).determinize ⟨[], none⟩ = .ok d ∧
        d.toRegex? = some .epsilon :=
  ⟨rfl, rfl, _, rfl, rfl⟩

end RegularLanguages.Nfa.Builder
