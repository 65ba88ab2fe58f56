import RegularLanguages.Proofs.Dfa.Minimize
import RegularLanguages.Proofs.Language.Residual
import RegularLanguages.Proofs.Language.Words

/-! # Comparing two automata up to the number of their states

A transition that is undefined leads nowhere, so the states of two automata
together with one state that accepts nothing are closed under residuals
(`closed_jointWords`).  That makes one more than the states of both, so automata
that agree on the words with no more characters than both have states accept the
same words (`accepts_eq_of_short`).  A character outside both alphabets is in no
accepted word, so looking at the joint alphabet is enough, and comparing up to
that length decides whether two automata accept the same words
(`sameLanguage_decides`). -/
set_option autoImplicit false
namespace RegularLanguages.Dfa

variable {d e : Dfa}

def wordsFrom (d : Dfa) (q : Nat) : Language Char := {word | d.acceptsFrom q word = true}

theorem mem_wordsFrom {q : Nat} {word : List Char} :
    word ∈ d.wordsFrom q ↔ d.acceptsFrom q word = true := Iff.rfl

/-- The words of the states of two automata, and no words. -/
def jointWords (d e : Dfa) : Option (Fin d.size ⊕ Fin e.size) → Language Char
  | none => 0
  | some (.inl q) => d.wordsFrom q
  | some (.inr q) => e.wordsFrom q

theorem residual_wordsFrom (det : Deterministic d) (q : Nat) (c : Char) :
    (∀ word, c :: word ∈ d.wordsFrom q ↔ word ∈ (0 : Language Char)) ∨
      ∃ p : Fin d.size, ∀ word, c :: word ∈ d.wordsFrom q ↔ word ∈ d.wordsFrom p := by
  simp only [mem_wordsFrom, acceptsFrom_cons]
  cases step : d.successor q c with
  | none => left; simp
  | some p => right; exact ⟨⟨p, det.successor_lt step⟩, fun word => by simp⟩

theorem closed_jointWords (det : Deterministic d) (det' : Deterministic e) :
    ClosedUnderResiduals (jointWords d e) := by
  intro state c
  match state with
  | none => exact ⟨none, fun word => by simp [jointWords]⟩
  | some (.inl q) =>
      rcases residual_wordsFrom det q c with nowhere | ⟨p, onward⟩
      · exact ⟨none, nowhere⟩
      · exact ⟨some (.inl p), onward⟩
  | some (.inr q) =>
      rcases residual_wordsFrom det' q c with nowhere | ⟨p, onward⟩
      · exact ⟨none, nowhere⟩
      · exact ⟨some (.inr p), onward⟩

theorem card_jointStates (d e : Dfa) :
    Nat.card (Option (Fin d.size ⊕ Fin e.size)) = d.size + e.size + 1 := by
  simp

/-- Automata that agree on the words with no more characters than both have states
accept the same words. -/
theorem accepts_eq_of_short (wf : WellFormed d) (wf' : WellFormed e)
    (agree : ∀ word, word.length ≤ d.size + e.size → d.accepts word = e.accepts word)
    (word : List Char) : d.accepts word = e.accepts word := by
  let start : Option (Fin d.size ⊕ Fin e.size) := some (.inl ⟨0, wf.size_pos⟩)
  let start' : Option (Fin d.size ⊕ Fin e.size) := some (.inr ⟨0, wf'.size_pos⟩)
  have same : jointWords d e start = jointWords d e start' := by
    apply eq_of_agree (closed_jointWords wf.det wf'.det)
    intro word short
    rw [card_jointStates] at short
    exact Bool.eq_iff_iff.1 (agree word (Nat.le_of_lt_succ short))
  rw [Bool.eq_iff_iff]
  exact Set.ext_iff.1 same word

theorem rejects_of_unknown (wf : WellFormed d) {word : List Char} {c : Char} (mem : c ∈ word)
    (unknown : c ∉ d.alphabet) : d.accepts word = false := by
  apply Bool.eq_false_iff.2
  intro accepted
  obtain ⟨q, run, -⟩ := acceptsFrom_iff.1 accepted
  exact unknown (mem_alphabet_of_run wf.symbols run c mem)

/-- Comparing two automata on the words over their characters, up to as many
characters as both have states, decides whether they accept the same words. -/
theorem sameLanguage_decides (built : Built d) (built' : Built e) :
    d.recognizer.sameLanguage e.recognizer (d.size + e.size) = true ↔
      ∀ word, d.accepts word = e.accepts word := by
  have wf := built.wellFormed
  have wf' := built'.wellFormed
  rw [Recognizer.sameLanguage_iff]
  constructor
  · intro compared
    apply accepts_eq_of_short wf wf'
    intro word short
    by_cases known : ∀ c ∈ word, c ∈ d.recognizer.jointAlphabet e.recognizer
    · exact compared word short known
    · obtain ⟨c, mem, unknown⟩ : ∃ c ∈ word, c ∉ d.recognizer.jointAlphabet e.recognizer := by
        simpa using known
      rw [Recognizer.mem_jointAlphabet, not_or] at unknown
      rw [rejects_of_unknown wf mem unknown.1, rejects_of_unknown wf' mem unknown.2]
  · intro same word _ _
    exact same word

def stem : Dfa where
  states := [⟨"s", false⟩, ⟨"p", true⟩]
  edges := [⟨0, 'b', 1⟩, ⟨0, 'a', 1⟩]
  alphabet := ['a', 'b']

theorem built_stem : Built stem := by
  have states := ((Built.new [] "s").addState "p").setAccepting (q := 1) (by decide)
  have first := states.addTransition (e := ⟨0, 'a', 1⟩) (by decide) (by decide) rfl
  exact first.addTransition (e := ⟨0, 'b', 1⟩) (by decide) (by decide) rfl

/-- The automaton that forks accepts the same words as the one that does not, and
not the same as one without transitions. -/
theorem sameLanguage_decides_stem :
    Built fork ∧ Built stem ∧ (∀ word, fork.accepts word = stem.accepts word) ∧
      Built (new ['c'] "s") ∧ ¬∀ word, stem.accepts word = (new ['c'] "s").accepts word := by
  have alone := Built.new ['c'] "s"
  refine ⟨built_fork, built_stem, (sameLanguage_decides built_fork built_stem).1 rfl, alone, ?_⟩
  intro same
  cases (sameLanguage_decides built_stem alone).2 same

end RegularLanguages.Dfa
