import RegularLanguages.Proofs.Nfa.Built

/-! # A run accepts what walks read

A walk is a list of edges, each of which begins where the one before ends.  A path
that spells a word is a walk whose labels, less those that read nothing, read the
characters of the word one by one (`path_iff_exists_walk`).  So a run accepts a word
exactly if a walk that reads it leads from the start to an accepting state, on
every automaton that the operations build, cycles that read nothing included
(`accepts_iff_exists_walk`). -/
set_option autoImplicit false
namespace RegularLanguages.Nfa

variable {n : Nfa} {edges : List Edge} {p q : Nat} {word : List Char}

def IsWalk (edges : List Edge) : Nat → List Edge → Nat → Prop
  | p, [], q => p = q
  | p, e :: route, q => e ∈ edges ∧ e.source = p ∧ IsWalk edges e.target route q

instance decidableIsWalk (edges : List Edge) :
    ∀ p route q, Decidable (IsWalk edges p route q)
  | p, [], q => inferInstanceAs (Decidable (p = q))
  | p, e :: route, q =>
      have := decidableIsWalk edges e.target route q
      inferInstanceAs (Decidable (e ∈ edges ∧ e.source = p ∧ IsWalk edges e.target route q))

def readings (route : List Edge) : List Label := (route.map (·.label)).filter (· ≠ .epsilon)

/-- Whether the edges of a walk read a word, each its character or nothing. -/
def Reads (route : List Edge) (word : List Char) : Prop :=
  List.Forall₂ (fun label c => label.reads c = true) (readings route) word

theorem readings_cons_epsilon {route : List Edge} :
    readings (⟨p, .epsilon, q⟩ :: route) = readings route := by
  simp [readings]

theorem readings_cons_of_ne {e : Edge} {route : List Edge} (reading : e.label ≠ .epsilon) :
    readings (e :: route) = e.label :: readings route := by
  simp [readings, reading]

theorem Path.exists_walk (path : Path edges p word q) :
    ∃ route, IsWalk edges p route q ∧ Reads route word := by
  induction path with
  | stay q => exact ⟨[], rfl, .nil⟩
  | @silent p q r w edge _ ih =>
      obtain ⟨route, walk, reads⟩ := ih
      refine ⟨⟨p, .epsilon, q⟩ :: route, ⟨edge, rfl, walk⟩, ?_⟩
      rwa [Reads, readings_cons_epsilon]
  | @read p q r label c w edge read _ ih =>
      obtain ⟨route, walk, reads⟩ := ih
      have reading : label ≠ .epsilon := by
        intro silent
        subst silent
        cases read
      refine ⟨⟨p, label, q⟩ :: route, ⟨edge, rfl, walk⟩, ?_⟩
      rw [Reads, readings_cons_of_ne reading]
      exact .cons read reads

theorem path_of_walk {route : List Edge} (walk : IsWalk edges p route q)
    (reads : Reads route word) : Path edges p word q := by
  induction route generalizing p word with
  | nil =>
      obtain rfl : p = q := walk
      obtain rfl := List.forall₂_nil_left_iff.1 reads
      exact .stay p
  | cons e route ih =>
      obtain ⟨source, label, target⟩ := e
      obtain ⟨edge, begins, onward⟩ := walk
      obtain rfl : source = p := begins
      by_cases silent : label = .epsilon
      · subst silent
        rw [Reads, readings_cons_epsilon] at reads
        exact .silent edge (ih onward reads)
      · rw [Reads, readings_cons_of_ne silent] at reads
        obtain ⟨c, rest, first, others, rfl⟩ := List.forall₂_cons_left_iff.1 reads
        exact .read edge first (ih onward others)

theorem path_iff_exists_walk :
    Path edges p word q ↔ ∃ route, IsWalk edges p route q ∧ Reads route word :=
  ⟨Path.exists_walk, fun ⟨_, walk, reads⟩ => path_of_walk walk reads⟩

/-- A run accepts a word exactly if a walk from the start to an accepting state
reads it.  Giving up where a character leads nowhere changes nothing: the run
that goes on with no states answers the same. -/
theorem accepts_iff_exists_walk (built : Built n) (word : List Char) :
    (n.accepts word = true ↔
      ∃ q route, n.isAccepting q = true ∧ IsWalk n.edges 0 route q ∧ Reads route word) ∧
      n.accepts word = n.acceptsSome (n.statesAfter word) := by
  refine ⟨?_, n.accepts_eq word⟩
  rw [built.wellFormed.accepts_iff_hasAcceptingPath, HasAcceptingPath]
  apply exists_congr
  intro q
  rw [path_iff_exists_walk, exists_and_left]

/-- Around the cycle the second state is reached, where `b` is read, and the first
again, from which `a` is read.  Nothing can be read after `a`. -/
theorem accepts_iff_exists_walk_cycle :
    Built (cycle (.symbol 'b')) ∧ (cycle (.symbol 'b')).accepts ['b', 'a'] = true ∧
      ¬∃ q route, (cycle (.symbol 'b')).isAccepting q = true ∧
        IsWalk (cycle (.symbol 'b')).edges 0 route q ∧ Reads route ['a', 'b'] := by
  have built := built_cycle (.symbol 'b')
  refine ⟨built, (accepts_iff_exists_walk built ['b', 'a']).1.2 ?_, fun walks => ?_⟩
  · refine ⟨2, [⟨0, .epsilon, 1⟩, ⟨1, .symbol 'b', 1⟩, ⟨1, .epsilon, 0⟩, ⟨0, .symbol 'a', 2⟩],
      rfl, by decide, ?_⟩
    exact .cons rfl (.cons rfl .nil)
  · cases (accepts_iff_exists_walk built ['a', 'b']).1.2 walks

end RegularLanguages.Nfa
