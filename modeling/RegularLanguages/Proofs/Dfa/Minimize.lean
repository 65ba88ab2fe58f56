import Mathlib.Data.Fintype.Card
import RegularLanguages.Proofs.Dfa.Built

/-! # Minimization

Minimizing merges exactly the states that no word tells apart and keeps the
accepted words.  It does not add or remove states otherwise, so the result need
not be the smallest automaton.  It is the smallest, and the only one up to
numbering, if some word leads to every state and every transition leads to a
state from which some word is accepted (`Trim`): then an accepted word tells
apart any two states of the result, and they have different states in every
automaton that accepts the same words. -/
set_option autoImplicit false
namespace RegularLanguages.Dfa

variable {d e m n : Dfa} {p q i j : Nat} {word : List Char}

/-- Minimizing stops as a round of refining splits no group.  It succeeds,
accepts the same words over the same alphabet, and two states become one
exactly if no word tells them apart. -/
theorem minimize_merges_indistinguishable (built : Built d) :
    (d.refine d.equivalenceGroups).length = d.equivalenceGroups.length ∧
      (d.groupNames d.equivalenceGroups).Nodup ∧
      ∃ m, d.minimize = .ok m ∧
        (∀ word, m.accepts word = d.accepts word) ∧
        m.alphabet = d.alphabet ∧
        Morphism d m d.mergedState ∧
        (∀ q < d.size, d.mergedState q < m.size) ∧
        (∀ i < m.size, ∃ q < d.size, d.mergedState q = i) ∧
        ∀ p < d.size, ∀ q < d.size,
          (d.mergedState p = d.mergedState q ↔ Indistinguishable d p q) := by
  have wf := built.wellFormed
  obtain ⟨m, ok, merged⟩ := exists_minimize wf
  exact ⟨length_refine_equivalenceGroups wf,
    nodup_groupNames wf (sound_equivalenceGroups wf).parts,
    m, ok, accepts_minimize wf ok, merged.alphabet, merged.morphism,
    fun _ => mergedState_lt wf ok, fun _ => exists_mergedState wf ok,
    fun _ ltP _ ltQ => mergedState_eq_iff wf ltP ltQ⟩

def fork : Dfa where
  states := [⟨"s", false⟩, ⟨"p", true⟩, ⟨"q", true⟩]
  edges := [⟨0, 'b', 2⟩, ⟨0, 'a', 1⟩]
  alphabet := ['a', 'b']

theorem built_fork : Built fork := by
  have named := ((Built.new [] "s").addState "p").addState "q"
  have states := (named.setAccepting (q := 1) (by decide)).setAccepting (q := 2) (by decide)
  have first := states.addTransition (e := ⟨0, 'a', 1⟩) (by decide) (by decide) rfl
  exact first.addTransition (e := ⟨0, 'b', 2⟩) (by decide) (by decide) rfl

theorem minimize_merges_fork : Built fork ∧ ∃ m, fork.minimize = .ok m ∧
    (∀ word, m.accepts word = fork.accepts word) ∧ fork.mergedState 1 = fork.mergedState 2 := by
  obtain ⟨-, -, m, ok, accepts, -, -, -, -, merges⟩ :=
    minimize_merges_indistinguishable built_fork
  refine ⟨built_fork, m, ok, accepts, (merges 1 (by decide) 2 (by decide)).2 fun word => ?_⟩
  cases word with
  | nil => exact ⟨rfl, rfl⟩
  | cons c rest => exact ⟨rfl, rfl⟩

/-! ## States that match -/

def Reached (d : Dfa) : Prop := ∀ q < d.size, ∃ word, d.run 0 word = some q

def Reduced (d : Dfa) : Prop := ∀ p < d.size, ∀ q < d.size, Indistinguishable d p q → p = q

/-- Two states of two automata from which the same words lead on, and the same
to acceptance. -/
def Matched (d e : Dfa) (p q : Nat) : Prop :=
  ∀ word, (d.run p word).isSome = (e.run q word).isSome ∧
    d.acceptsFrom p word = e.acceptsFrom q word

theorem Matched.symm (matched : Matched d e p q) : Matched e d q p :=
  fun word => ⟨(matched word).1.symm, (matched word).2.symm⟩

theorem Matched.trans (first : Matched d e p q) (second : Matched e n q i) : Matched d n p i :=
  fun word => ⟨(first word).1.trans (second word).1, (first word).2.trans (second word).2⟩

theorem Matched.run (matched : Matched d e p q) (run : d.run p word = some i) :
    ∃ j, e.run q word = some j ∧ Matched d e i j := by
  have leads : (e.run q word).isSome = true := by
    rw [← (matched word).1, run, Option.isSome_some]
  obtain ⟨j, run'⟩ := Option.isSome_iff_exists.1 leads
  refine ⟨j, run', fun rest => ?_⟩
  have onward := matched (word ++ rest)
  rwa [run_append, run_append, acceptsFrom_append, acceptsFrom_append, run, run'] at onward

theorem Morphism.matched {f : Nat → Nat} (keeps : Morphism d e f) (det : Deterministic d)
    (lt : q < d.size) : Matched d e q (f q) := by
  intro word
  rw [keeps.run_eq det lt, keeps.acceptsFrom_eq det lt, Option.isSome_map]
  exact ⟨rfl, rfl⟩

theorem Morphism.matched_start {f : Nat → Nat} (keeps : Morphism d e f) (wf : WellFormed d) :
    Matched d e 0 0 := by
  have matched := keeps.matched wf.det wf.size_pos
  rwa [keeps.start] at matched

theorem Morphism.indistinguishable_iff {f : Nat → Nat} (keeps : Morphism d e f)
    (det : Deterministic d) (ltP : p < d.size) (ltQ : q < d.size) :
    Indistinguishable e (f p) (f q) ↔ Indistinguishable d p q := by
  have first := keeps.matched det ltP
  have second := keeps.matched det ltQ
  constructor
  · exact fun same => (first.trans same).trans second.symm
  · exact fun same => (first.symm.trans same).trans second

theorem Reached.exists_matched (reached : Reached d) (det : Deterministic e) (pos : 0 < e.size)
    (start : Matched d e 0 0) (lt : q < d.size) : ∃ i < e.size, Matched d e q i := by
  obtain ⟨word, run⟩ := reached q lt
  obtain ⟨i, run', matched⟩ := start.run run
  exact ⟨i, det.run_lt pos run', matched⟩

/-- An automaton of which every state has a partner that no other state has is
not larger. -/
theorem size_le_of_partners {R : Nat → Nat → Prop} (partner : ∀ q < d.size, ∃ i < e.size, R q i)
    (own : ∀ p < d.size, ∀ q < d.size, ∀ i, R p i → R q i → p = q) : d.size ≤ e.size := by
  have states : ∀ q : Fin d.size, ∃ i : Fin e.size, R q i := by
    intro q
    obtain ⟨i, lt, related⟩ := partner q q.isLt
    exact ⟨⟨i, lt⟩, related⟩
  choose state related using states
  have injective : Function.Injective state := by
    intro p q eq
    have relatedP := related p
    rw [eq] at relatedP
    exact Fin.ext (own p p.isLt q q.isLt _ relatedP (related q))
  have counted := Fintype.card_le_of_injective state injective
  rwa [Fintype.card_fin, Fintype.card_fin] at counted

theorem Reduced.eq_of_matched (reduced : Reduced d) (ltP : p < d.size) (ltQ : q < d.size)
    (matchedP : Matched d e p i) (matchedQ : Matched d e q i) : p = q :=
  reduced p ltP q ltQ (matchedP.trans matchedQ.symm)

/-- Reduced automata of which every state is reached are the same up to the
numbering of their states if their starts match. -/
theorem isomorphic_of_matched (reached : Reached d) (reduced : Reduced d) (wf : WellFormed d)
    (reached' : Reached e) (reduced' : Reduced e) (wf' : WellFormed e)
    (start : Matched d e 0 0) : Isomorphic d e := by
  have partner : ∀ q < d.size, ∃ i < e.size, Matched d e q i := fun q =>
    reached.exists_matched wf'.det wf'.size_pos start
  have partner' : ∀ i < e.size, ∃ q < d.size, Matched e d i q := fun i =>
    reached'.exists_matched wf.det wf.size_pos start.symm
  have states : ∀ q, ∃ i, q < d.size → i < e.size ∧ Matched d e q i := by
    intro q
    by_cases lt : q < d.size
    · obtain ⟨i, spec⟩ := partner q lt
      exact ⟨i, fun _ => spec⟩
    · exact ⟨0, fun inside => absurd inside lt⟩
  choose f spec using states
  have unique : ∀ {q i}, q < d.size → i < e.size → Matched d e q i → f q = i :=
    fun lt lt' matched =>
      reduced'.eq_of_matched (spec _ lt).1 lt' (spec _ lt).2.symm matched.symm
  refine ⟨f, ?_, fun q lt => (spec q lt).1, ?_, unique wf.size_pos wf'.size_pos start,
    fun q lt => ((spec q lt).2 []).2.symm, ?_⟩
  · apply Nat.le_antisymm
    · exact size_le_of_partners partner' fun p ltP q ltQ i => reduced'.eq_of_matched ltP ltQ
    · exact size_le_of_partners partner fun p ltP q ltQ i => reduced.eq_of_matched ltP ltQ
  · intro p ltP q ltQ eq
    have matchedP := (spec p ltP).2
    rw [eq] at matchedP
    exact reduced.eq_of_matched ltP ltQ matchedP (spec q ltQ).2
  · intro q lt c
    have matched := (spec q lt).2
    cases step : d.successor q c with
    | some next =>
        obtain ⟨j, run, onward⟩ := matched.run ((run_singleton d q c).trans step)
        rw [run_singleton] at run
        rw [run, Option.map_some,
          unique (wf.det.successor_lt step) (wf'.det.successor_lt run) onward]
    | none =>
        have undefined := (matched [c]).1
        rw [run_singleton, run_singleton, step] at undefined
        exact Option.not_isSome_iff_eq_none.1 (Bool.eq_false_iff.1 undefined.symm)

/-! ## Minimal automata -/

structure Trim (d : Dfa) : Prop where
  reached : ∀ q < d.size, ∃ word, d.run 0 word = some q
  productive : ∀ e ∈ d.edges, ∃ word, d.acceptsFrom e.target word = true

def Alike (d e : Dfa) (p q : Nat) : Prop := ∀ word, d.acceptsFrom p word = e.acceptsFrom q word

theorem Trim.productive_of_run (trim : Trim d) (run : d.run p word = some q)
    (nonempty : word ≠ []) : ∃ rest, d.acceptsFrom q rest = true := by
  rcases List.eq_nil_or_concat word with rfl | ⟨front, c, rfl⟩
  · exact absurd rfl nonempty
  · rw [List.concat_eq_append, run_append_singleton] at run
    obtain ⟨r, -, step⟩ := Option.bind_eq_some_iff.1 run
    exact trim.productive _ (mem_edges_of_successor step)

theorem Alike.symm (alike : Alike d e p q) : Alike e d q p := fun word => (alike word).symm

theorem Alike.trans (first : Alike d e p q) (second : Alike e n q i) : Alike d n p i :=
  fun word => (first word).trans (second word)

theorem Alike.run (alike : Alike d e p q) (run : d.run p word = some i)
    (productive : ∃ rest, d.acceptsFrom i rest = true) :
    ∃ j, e.run q word = some j ∧ Alike d e i j := by
  have onward : ∀ rest, d.acceptsFrom i rest = (e.run q word).any (e.acceptsFrom · rest) := by
    intro rest
    rw [← acceptsFrom_append, ← alike, acceptsFrom_append, run]
    rfl
  obtain ⟨rest, accepted⟩ := productive
  rw [onward] at accepted
  obtain ⟨j, run', -⟩ := (Option.any_eq_true _ _).1 accepted
  refine ⟨j, run', fun rest => ?_⟩
  rw [onward, run']
  rfl

theorem Trim.run (trim : Trim d) (alike : Alike d e p q) (run : d.run p word = some i) :
    ∃ j, e.run q word = some j ∧ Alike d e i j := by
  by_cases empty : word = []
  · subst empty
    obtain rfl := Option.some.inj run
    exact ⟨q, rfl, alike⟩
  · exact alike.run run (trim.productive_of_run run empty)

/-- In trim automata a word leads on if a longer one is accepted, so states
alike are matched. -/
theorem Trim.matched (trim : Trim d) (trim' : Trim e) (alike : Alike d e p q) :
    Matched d e p q := by
  intro word
  refine ⟨?_, alike word⟩
  rw [Bool.eq_iff_iff, Option.isSome_iff_exists, Option.isSome_iff_exists]
  constructor
  · intro ⟨i, run⟩
    obtain ⟨j, run', -⟩ := trim.run alike run
    exact ⟨j, run'⟩
  · intro ⟨j, run⟩
    obtain ⟨i, run', -⟩ := trim'.run alike.symm run
    exact ⟨i, run'⟩

/-- Every state of a trim automaton has a state alike in an automaton that
accepts the same words. -/
theorem Trim.exists_alike (trim : Trim d) (pos : 0 < e.size)
    (inside : ∀ edge ∈ e.edges, edge.target < e.size)
    (same : ∀ word, d.accepts word = e.accepts word) (lt : q < d.size) :
    ∃ i < e.size, Alike d e q i := by
  obtain ⟨word, run⟩ := trim.reached q lt
  obtain ⟨i, run', alike⟩ := trim.run (e := e) (q := 0) same run
  exact ⟨i, run_lt inside pos run', alike⟩

/-- A trim reduced automaton is the smallest that accepts its words. -/
theorem Trim.size_le (trim : Trim d) (reduced : Reduced d) (pos : 0 < e.size)
    (inside : ∀ edge ∈ e.edges, edge.target < e.size)
    (same : ∀ word, d.accepts word = e.accepts word) : d.size ≤ e.size := by
  apply size_le_of_partners (R := Alike d e)
  · exact fun q => trim.exists_alike pos inside same
  · intro p ltP q ltQ i alikeP alikeQ
    exact reduced p ltP q ltQ (trim.matched trim (alikeP.trans alikeQ.symm))

/-- Trim reduced automata that accept the same words are the same up to the
numbering of their states. -/
theorem Trim.isomorphic (trim : Trim d) (reduced : Reduced d) (wf : WellFormed d)
    (trim' : Trim e) (reduced' : Reduced e) (wf' : WellFormed e)
    (same : ∀ word, d.accepts word = e.accepts word) : Isomorphic d e :=
  isomorphic_of_matched trim.reached reduced wf trim'.reached reduced' wf'
    (trim.matched trim' same)

/-! ## Minimized automata -/

theorem reduced_minimize (wf : WellFormed d) (ok : d.minimize = .ok m) : Reduced m := by
  intro i ltI j ltJ alike
  obtain ⟨p, ltP, rfl⟩ := exists_mergedState wf ok ltI
  obtain ⟨q, ltQ, rfl⟩ := exists_mergedState wf ok ltJ
  have keeps : Morphism d m d.mergedState := (merged_minimize wf ok).morphism
  exact (mergedState_eq_iff wf ltP ltQ).2 ((keeps.indistinguishable_iff wf.det ltP ltQ).1 alike)

theorem reached_minimize (wf : WellFormed d) (ok : d.minimize = .ok m) (reached : Reached d) :
    Reached m := by
  have keeps : Morphism d m d.mergedState := (merged_minimize wf ok).morphism
  intro i lt
  obtain ⟨q, ltQ, rfl⟩ := exists_mergedState wf ok lt
  obtain ⟨word, run⟩ := reached q ltQ
  refine ⟨word, ?_⟩
  have same := keeps.run_eq wf.det wf.size_pos word
  rwa [keeps.start, run] at same

theorem trim_minimize (wf : WellFormed d) (ok : d.minimize = .ok m) (trim : Trim d) : Trim m where
  reached := reached_minimize wf ok trim.reached
  productive := by
    intro edge mem
    obtain ⟨f, original, -, -, target⟩ := (mem_edges_minimize wf ok).1 mem
    obtain ⟨word, accepted⟩ := trim.productive f original
    refine ⟨word, ?_⟩
    have keeps : Morphism d m d.mergedState := (merged_minimize wf ok).morphism
    rw [← target, keeps.acceptsFrom_eq wf.det (wf.ends f original).2]
    exact accepted

end RegularLanguages.Dfa
