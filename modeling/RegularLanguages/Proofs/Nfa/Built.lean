import RegularLanguages.Nfa.Spec
import RegularLanguages.Proofs.Nfa.Determinize

/-! # Determinization of the automata that the operations build

Every operation keeps an automaton well-formed (`Built.wellFormed`).  So the
search for sets ends, and the deterministic automaton runs along the paths: a
word over the alphabet leads to the state that stands for the ends of its paths,
and nowhere if it has none (`determinize_follows_paths`). -/
set_option autoImplicit false
namespace RegularLanguages.Nfa

variable {n : Nfa} {q : Nat} {c : Char}

/-! ## Operations -/

theorem wellFormed_new : WellFormed new where
  size_pos := Nat.one_pos
  ends := by simp [new]
  accepting := by simp [new]
  increasing := List.Pairwise.nil
  symbols := by simp [new]

theorem WellFormed.addState (wf : WellFormed n) : WellFormed n.addState where
  size_pos := Nat.succ_pos _
  ends e edge := (wf.ends e edge).imp Nat.lt_succ_of_lt Nat.lt_succ_of_lt
  accepting p mem := Nat.lt_succ_of_lt (wf.accepting p mem)
  increasing := wf.increasing
  symbols := wf.symbols

theorem WellFormed.addSymbol (wf : WellFormed n) (c : Char) : WellFormed (n.addSymbol c) where
  size_pos := wf.size_pos
  ends := wf.ends
  accepting := wf.accepting
  increasing := wf.increasing.insert c
  symbols e edge d names := (OrderedSet.mem_insert c d _).2 (.inr (wf.symbols e edge d names))

theorem WellFormed.addLabel (wf : WellFormed n) (label : Label) :
    WellFormed (n.addLabel label) := by
  rw [Nfa.addLabel]
  split
  next c _ => exact wf.addSymbol c
  next => exact wf

theorem size_addLabel (n : Nfa) (label : Label) : (n.addLabel label).size = n.size := by
  rw [addLabel]
  split <;> rfl

theorem mem_alphabet_addLabel {label : Label} (names : label.symbol? = some c) :
    c ∈ (n.addLabel label).alphabet := by
  simp [addLabel, names, Nfa.addSymbol]

theorem Grounded.link {e : Edge} (grounded : Grounded n) (source : e.source < n.size)
    (target : e.target < n.size) : Grounded (n.link e) where
  size_pos := grounded.size_pos
  ends := List.forall_mem_cons.2 ⟨⟨source, target⟩, grounded.ends⟩
  increasing := grounded.increasing

theorem WellFormed.link {e : Edge} (wf : WellFormed n) (source : e.source < n.size)
    (target : e.target < n.size) (known : ∀ c, e.label.symbol? = some c → c ∈ n.alphabet) :
    WellFormed (n.link e) where
  toGrounded := wf.toGrounded.link source target
  accepting := wf.accepting
  symbols := List.forall_mem_cons.2 ⟨known, wf.symbols⟩

theorem WellFormed.addEdge {e : Edge} (wf : WellFormed n) (source : e.source < n.size)
    (target : e.target < n.size) : WellFormed (n.addEdge e) := by
  refine (wf.addLabel e.label).link ?_ ?_ fun c names => mem_alphabet_addLabel names
  · rwa [size_addLabel]
  · rwa [size_addLabel]

theorem WellFormed.setAccepting (wf : WellFormed n) (lt : q < n.size) :
    WellFormed (n.setAccepting q) where
  size_pos := wf.size_pos
  ends := wf.ends
  accepting p mem := by
    rcases (OrderedSet.mem_insert q p _).1 mem with rfl | old
    · exact lt
    · exact wf.accepting p old
  increasing := wf.increasing
  symbols := wf.symbols

theorem Built.wellFormed (built : Built n) : WellFormed n := by
  induction built with
  | new => exact wellFormed_new
  | addState _ wf => exact wf.addState
  | addSymbol c _ wf => exact wf.addSymbol c
  | addEdge _ source target wf =>
      exact wf.addEdge (of_decide_eq_true source) (of_decide_eq_true target)
  | setAccepting _ lt wf => exact wf.setAccepting (of_decide_eq_true lt)

/-! ## Sets and paths -/

section Paths

open Subset

variable {found : Discovery} {d : Dfa} {alphabet word u v : List Char} {i : Nat}

/-- Without edges that read any character, every accepted word is over the
alphabet. -/
theorem WellFormed.mem_inferAlphabet_of_path (wf : WellFormed n)
    (named : ∀ e ∈ n.edges, e.label ≠ .any) (fallback : List Char) {p : Nat}
    (path : Path n.edges p word q) : ∀ c ∈ word, c ∈ n.inferAlphabet fallback := by
  induction path with
  | stay => exact fun c mem => absurd mem List.not_mem_nil
  | silent _ _ ih => exact ih
  | @read p q r label b w edge reads _ ih =>
      refine List.forall_mem_cons.2 ⟨?_, ih⟩
      cases label with
      | symbol d =>
          obtain rfl : d = b := by simpa [Label.reads] using reads
          have known : d ∈ n.alphabet := wf.symbols _ edge d rfl
          rw [inferAlphabet, if_pos (List.ne_nil_of_mem known)]
          exact known
      | any => exact absurd rfl (named _ edge)
      | epsilon => cases reads

def StandsFor (n : Nfa) (found : Discovery) (i : Nat) (word : List Char) : Prop :=
  ∃ set, found.sets[i]? = some set ∧ ∀ q, q ∈ set ↔ Path n.edges 0 word q

/-- Without a limit an automaton that the operations build is determinized.  The
deterministic automaton leads a word over the alphabet to the state that stands
for the ends of the paths that spell it, which accepts if one of them does, and
nowhere if there is none.  Its words are those of the automaton with free choice
that are over the alphabet; all of them if no edge reads any character. -/
theorem determinize_follows_paths (built : Built n) (fallback : List Char) :
    ∃ found d, n.discover ⟨fallback, none⟩ = .ok found ∧
      n.determinize ⟨fallback, none⟩ = .ok d ∧
      d.alphabet = n.inferAlphabet fallback ∧
      (∀ word, (∀ c ∈ word, c ∈ d.alphabet) →
        (d.run 0 word = none ↔ ∀ q, ¬Path n.edges 0 word q) ∧
          ∀ i, d.run 0 word = some i →
            StandsFor n found i word ∧ (d.isAccepting i = true ↔ n.HasAcceptingPath word)) ∧
      (∀ u v, (∀ c ∈ u, c ∈ d.alphabet) → (∀ c ∈ v, c ∈ d.alphabet) →
        (d.run 0 u = d.run 0 v ↔ ∀ q, Path n.edges 0 u q ↔ Path n.edges 0 v q)) ∧
      (∀ word, d.accepts word = true ↔
        n.accepts word = true ∧ ∀ c ∈ word, c ∈ d.alphabet) ∧
      ((∀ e ∈ n.edges, e.label ≠ .any) → ∀ word, d.accepts word = n.accepts word) := by
  have wf := built.wellFormed
  obtain ⟨d, ok⟩ := exists_determinize n fallback
  have alphabet := alphabet_determinize ok
  have accepts : ∀ word, d.accepts word = true ↔
      n.accepts word = true ∧ ∀ c ∈ word, c ∈ d.alphabet := by
    rw [alphabet]
    exact fun word => accepts_determinize wf ok
  obtain ⟨found, discovered, rfl⟩ := determinize_ok ok
  have h := discovered_of_discover wf discovered
  have increasing := increasing_inferAlphabet wf fallback
  refine ⟨found, _, discovered, ok, alphabet, ?_, ?_, accepts, ?_⟩
  · intro word allowed
    refine ⟨(run_toDfa_eq_none_iff h increasing allowed).trans wf.statesAfter_eq_nil_iff, ?_⟩
    intro i run
    have there := (run_toDfa_eq_some_iff h increasing allowed).1 run
    refine ⟨⟨_, there, fun q => wf.mem_statesAfter⟩, ?_⟩
    rw [isAccepting_toDfa there, ← accepts_eq]
    exact wf.accepts_iff_hasAcceptingPath
  · intro u v allowed allowed'
    exact (run_toDfa_eq_iff h increasing allowed allowed').trans wf.statesAfter_eq_iff
  · intro named word
    rw [Bool.eq_iff_iff, accepts word, and_iff_left_iff_imp]
    intro accepted
    obtain ⟨q, -, path⟩ := wf.accepts_iff_hasAcceptingPath.1 accepted
    exact wf.mem_inferAlphabet_of_path named fallback path

/-- Nothing is read on a cycle through two states.  The second has a loop with
the given label, and `a` leads from the first to the third, which accepts. -/
def cycle (label : Label) : Nfa :=
  ((((new.addState.addState.addEdge ⟨0, .epsilon, 1⟩).addEdge ⟨1, .epsilon, 0⟩).addEdge
    ⟨1, label, 1⟩).addEdge ⟨0, .symbol 'a', 2⟩).setAccepting 2

theorem built_cycle (label : Label) : Built (cycle label) := by
  have states := Built.new.addState.addState
  have out := states.addEdge (e := ⟨0, .epsilon, 1⟩) rfl rfl
  have back := out.addEdge (e := ⟨1, .epsilon, 0⟩) rfl rfl
  have loop := back.addEdge (e := ⟨1, label, 1⟩) rfl rfl
  cases label <;> exact (loop.addEdge (e := ⟨0, .symbol 'a', 2⟩) rfl rfl).setAccepting (q := 2) rfl

theorem hasAcceptingPath_cycle : (cycle .any).HasAcceptingPath ['a'] := by
  have edge : (⟨0, .symbol 'a', 2⟩ : Edge) ∈ (cycle .any).edges := by decide
  exact ⟨2, rfl, .read edge rfl (.stay 2)⟩

theorem determinize_follows_paths_cycle :
    Built (cycle .any) ∧ Built (cycle (.symbol 'b')) ∧
      (∃ found d, (cycle .any).discover ⟨[], none⟩ = .ok found ∧
        (cycle .any).determinize ⟨[], none⟩ = .ok d ∧
        (∃ i, d.run 0 ['a'] = some i ∧ StandsFor (cycle .any) found i ['a'] ∧
          d.isAccepting i = true) ∧
        (cycle .any).accepts ['b', 'a'] = true ∧ d.accepts ['b', 'a'] = false) ∧
      ∃ d, (cycle (.symbol 'b')).determinize ⟨[], none⟩ = .ok d ∧
        (∀ e ∈ (cycle (.symbol 'b')).edges, e.label ≠ .any) ∧ d.accepts ['b', 'a'] = true := by
  refine ⟨built_cycle _, built_cycle _, ?_, ?_⟩
  · obtain ⟨found, d, discovered, ok, alphabet, runs, -, accepts, -⟩ :=
      determinize_follows_paths (built_cycle .any) []
    have only : d.alphabet = ['a'] := alphabet
    have allowed : ∀ c ∈ ['a'], c ∈ d.alphabet := by simp [only]
    have path := hasAcceptingPath_cycle
    refine ⟨found, d, discovered, ok, ?_, by decide, ?_⟩
    · cases run : d.run 0 ['a'] with
      | none =>
          obtain ⟨q, -, reached⟩ := path
          exact absurd reached ((runs ['a'] allowed).1.1 run q)
      | some i =>
          obtain ⟨stands, accepting⟩ := (runs ['a'] allowed).2 i run
          exact ⟨i, rfl, stands, accepting.2 path⟩
    · rw [Bool.eq_false_iff, Ne, accepts, only]
      exact fun both => absurd (both.2 'b' (by decide)) (by decide)
  · obtain ⟨-, d, -, ok, -, -, -, -, named⟩ :=
      determinize_follows_paths (built_cycle (.symbol 'b')) []
    have labels : ∀ e ∈ (cycle (.symbol 'b')).edges, e.label ≠ .any := by decide
    exact ⟨d, ok, labels, (named labels ['b', 'a']).trans (by decide)⟩

end Paths

end RegularLanguages.Nfa
