import RegularLanguages.Proofs.Dfa.Minimize
import RegularLanguages.Proofs.Nfa.Determinize
import RegularLanguages.Proofs.Nfa.Position
import RegularLanguages.Proofs.Nfa.Thompson

/-! # Minimal automata of expressions

In both automata of an expression every state leads to acceptance, and with the
characters of the inferred alphabet alone: a label that names a character makes
the alphabet know it, and any character will do for `.`.  So the deterministic
automaton is trim.  That alphabet may be empty, and then there are no
transitions. -/
set_option autoImplicit false
namespace RegularLanguages.Nfa

variable {n : Nfa} {settings : Subset.Settings} {fallback : List Char} {d : Dfa}

theorem inferAlphabet_eq (wf : WellFormed n) (fallback : List Char) :
    n.inferAlphabet fallback =
      if n.alphabet = [] then OrderedSet.ofList fallback else n.alphabet := by
  rw [inferAlphabet]
  by_cases empty : n.alphabet = []
  · have noLiterals : n.literals = [] := by
      refine List.eq_nil_iff_forall_not_mem.2 fun c mem => ?_
      rw [literals, OrderedSet.mem_ofList, List.mem_filterMap] at mem
      obtain ⟨e, edge, names⟩ := mem
      exact List.not_mem_nil (empty ▸ wf.symbols e edge c names)
    rw [if_neg (not_not.2 empty), if_pos empty, if_neg (not_not.2 noLiterals)]
  · rw [if_pos empty, if_neg empty]

/-- Every label reads nothing or a character of the inferred alphabet, unless
that is empty. -/
theorem readable_inferAlphabet (wf : WellFormed n) (letters : n.inferAlphabet fallback ≠ []) :
    ∀ e ∈ n.edges,
      e.label = .epsilon ∨ ∃ c ∈ n.inferAlphabet fallback, e.label.reads c = true := by
  rintro ⟨p, label, q⟩ edge
  cases label with
  | epsilon => exact .inl rfl
  | any =>
      obtain ⟨c, mem⟩ := List.exists_mem_of_ne_nil _ letters
      exact .inr ⟨c, mem, rfl⟩
  | symbol c =>
      have known : c ∈ n.alphabet := wf.symbols _ edge c rfl
      refine .inr ⟨c, ?_, beq_self_eq_true c⟩
      rw [inferAlphabet, if_pos (List.ne_nil_of_mem known)]
      exact known

theorem productive_determinize (wf : WellFormed n) (productive : Productive n)
    (ok : n.determinize settings = .ok d) (letters : d.alphabet ≠ []) {i : Nat} (lt : i < d.size) :
    ∃ word, d.acceptsFrom i word = true := by
  obtain ⟨before, allowed, run, nonempty⟩ := exists_run_determinize wf ok lt
  rw [alphabet_determinize ok] at letters allowed
  obtain ⟨p, mem⟩ := List.exists_mem_of_ne_nil _ nonempty
  have first := wf.mem_statesAfter.1 mem
  obtain ⟨_, t, accepting, path⟩ := productive p (wf.statesAfter_lt mem)
  obtain ⟨after, allowed', onward⟩ := path.exists_over (readable_inferAlphabet wf letters)
  have accepted : d.accepts (before ++ after) = true :=
    (accepts_determinize wf ok).2
      ⟨wf.accepts_iff_hasAcceptingPath.2 ⟨t, accepting, first.append onward⟩,
        fun c inside => (List.mem_append.1 inside).elim (allowed c) (allowed' c)⟩
  rw [Dfa.accepts_eq_acceptsFrom, Dfa.acceptsFrom_append, run] at accepted
  exact ⟨after, accepted⟩

theorem trim_determinize (wf : WellFormed n) (productive : Productive n)
    (ok : n.determinize settings = .ok d) : Dfa.Trim d where
  reached i lt := by
    obtain ⟨word, -, run, -⟩ := exists_run_determinize wf ok lt
    exact ⟨word, run⟩
  productive e edge := by
    have whole := wellFormed_determinize wf ok
    exact productive_determinize wf productive ok (List.ne_nil_of_mem (whole.symbols e edge))
      (whole.ends e edge).2

/-! ## From expressions -/

inductive Builder where
  | thompson
  | positions

namespace Builder

variable {b : Builder} {r : Regex} {m : Dfa} {word : List Char}

def build : Builder → Regex → Nfa
  | thompson => Nfa.thompson
  | positions => Nfa.ofPositions

theorem wellFormed_build (b : Builder) (r : Regex) : WellFormed (b.build r) := by
  cases b with
  | thompson => exact wellFormed_thompson r
  | positions => exact wellFormed_ofPositions r

theorem productive_build (b : Builder) (r : Regex) : Productive (b.build r) := by
  cases b with
  | thompson => exact productive_thompson r
  | positions => exact productive_ofPositions r

theorem alphabet_build (b : Builder) (r : Regex) : (b.build r).alphabet = r.literals := by
  cases b with
  | thompson => exact thompson_alphabet r
  | positions => exact alphabet_ofPositions r

theorem accepts_build : (b.build r).accepts word = true ↔ word ∈ r.language := by
  cases b with
  | thompson => exact accepts_thompson
  | positions => exact accepts_ofPositions

theorem inferAlphabet_build (b : Builder) (r : Regex) (fallback : List Char) :
    (b.build r).inferAlphabet fallback = r.alphabet fallback := by
  rw [inferAlphabet_eq (wellFormed_build b r), alphabet_build, Regex.alphabet]

theorem accepts_determinize_build (ok : (b.build r).determinize settings = .ok d) :
    d.accepts word = true ↔
      word ∈ r.language ∧ ∀ c ∈ word, c ∈ r.alphabet settings.fallback := by
  rw [accepts_determinize (wellFormed_build b r) ok, accepts_build, inferAlphabet_build]

structure Yields (b : Builder) (r : Regex) (settings : Subset.Settings) (d m : Dfa) : Prop where
  determinized : (b.build r).determinize settings = .ok d
  minimized : d.minimize = .ok m

theorem exists_yields (b : Builder) (r : Regex) (fallback : List Char) :
    ∃ d m, b.Yields r ⟨fallback, none⟩ d m := by
  obtain ⟨d, ok⟩ := exists_determinize (b.build r) fallback
  obtain ⟨m, minimized, -⟩ := Dfa.exists_minimize (wellFormed_determinize (wellFormed_build b r) ok)
  exact ⟨d, m, ok, minimized⟩

namespace Yields

theorem wellFormed (h : b.Yields r settings d m) : Dfa.WellFormed d :=
  wellFormed_determinize (wellFormed_build b r) h.determinized

theorem merged (h : b.Yields r settings d m) : Dfa.Merged d d.equivalenceGroups m :=
  Dfa.merged_minimize h.wellFormed h.minimized

theorem accepts (h : b.Yields r settings d m) (word : List Char) :
    m.accepts word = d.accepts word := Dfa.accepts_minimize h.wellFormed h.minimized word

theorem trim (h : b.Yields r settings d m) : Dfa.Trim m :=
  Dfa.trim_minimize h.wellFormed h.minimized
    (trim_determinize (wellFormed_build b r) (productive_build b r) h.determinized)

theorem reduced (h : b.Yields r settings d m) : Dfa.Reduced m :=
  Dfa.reduced_minimize h.wellFormed h.minimized

end Yields

/-- The minimized automaton of an expression is the smallest that accepts its
words.  Where two deterministic automata of expressions accept the same words,
the minimized ones are the same up to the numbering of their states, so both
ways from an expression lead to the same number of states. -/
theorem yields_minimal :
    (∀ b r fallback, ∃ d m, Yields b r ⟨fallback, none⟩ d m) ∧
      (∀ b r settings d m, Yields b r settings d m →
        ∀ e : Dfa, 0 < e.size → (∀ edge ∈ e.edges, edge.target < e.size) →
          (∀ word, m.accepts word = e.accepts word) → m.size ≤ e.size) ∧
      (∀ b₁ b₂ r₁ r₂ s₁ s₂ d₁ d₂ m₁ m₂, Yields b₁ r₁ s₁ d₁ m₁ → Yields b₂ r₂ s₂ d₂ m₂ →
        (∀ word, d₁.accepts word = d₂.accepts word) → Dfa.Isomorphic m₁ m₂) ∧
      (∀ r s₁ s₂ d₁ d₂ m₁ m₂, Yields thompson r s₁ d₁ m₁ → Yields positions r s₂ d₂ m₂ →
        s₁.fallback = s₂.fallback → m₁.size = m₂.size) := by
  have isomorphic : ∀ b₁ b₂ r₁ r₂ s₁ s₂ d₁ d₂ m₁ m₂, Yields b₁ r₁ s₁ d₁ m₁ →
      Yields b₂ r₂ s₂ d₂ m₂ → (∀ word, d₁.accepts word = d₂.accepts word) →
        Dfa.Isomorphic m₁ m₂ := by
    intro b₁ b₂ r₁ r₂ s₁ s₂ d₁ d₂ m₁ m₂ first second same
    exact first.trim.isomorphic first.reduced first.merged.wellFormed second.trim second.reduced
      second.merged.wellFormed fun word => by rw [first.accepts, second.accepts, same]
  refine ⟨exists_yields, ?_, isomorphic, ?_⟩
  · intro b r settings d m yields e pos inside same
    exact yields.trim.size_le yields.reduced pos inside same
  · intro r s₁ s₂ d₁ d₂ m₁ m₂ first second fallback
    obtain ⟨f, renumbering⟩ := isomorphic _ _ _ _ _ _ _ _ _ _ first second fun word => by
      rw [Bool.eq_iff_iff, accepts_determinize_build first.determinized,
        accepts_determinize_build second.determinized, fallback]
    exact renumbering.size.symm

end Builder

end RegularLanguages.Nfa
