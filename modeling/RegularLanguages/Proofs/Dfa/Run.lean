import RegularLanguages.Dfa.Spec

/-! # Runs of a deterministic automaton

On a well-formed automaton the newest edge of a state for a character is the
only one, so a character leads where the edges say (`successor_eq_some_iff`),
and runs stay among the states. -/
set_option autoImplicit false
namespace RegularLanguages.Dfa

variable {d : Dfa} {p q : Nat} {c : Char} {u v w : List Char}

structure Deterministic (d : Dfa) : Prop where
  ends : ∀ e ∈ d.edges, e.source < d.size ∧ e.target < d.size
  target_eq : ∀ e ∈ d.edges, ∀ f ∈ d.edges,
    e.source = f.source → e.symbol = f.symbol → e.target = f.target

theorem WellFormed.det (wf : WellFormed d) : Deterministic d := ⟨wf.ends, wf.deterministic⟩

theorem mem_edges_of_successor (h : d.successor q c = some p) : ⟨q, c, p⟩ ∈ d.edges := by
  obtain ⟨e, found, rfl⟩ := Option.map_eq_some_iff.1 h
  have mem := List.mem_of_find?_eq_some found
  have ends := List.find?_some found
  simp only [Bool.and_eq_true, beq_iff_eq] at ends
  rw [← ends.1, ← ends.2]
  exact mem

theorem successor_isSome_of_mem (edge : ⟨q, c, p⟩ ∈ d.edges) :
    ∃ target, d.successor q c = some target := by
  have isFound : (d.edge? q c).isSome = true := List.find?_isSome.2 ⟨_, edge, by simp⟩
  obtain ⟨e, found⟩ := Option.isSome_iff_exists.1 isFound
  exact ⟨e.target, by rw [successor, found, Option.map_some]⟩

namespace Deterministic

theorem successor_eq_some_iff (det : Deterministic d) :
    d.successor q c = some p ↔ ⟨q, c, p⟩ ∈ d.edges := by
  constructor
  · exact mem_edges_of_successor
  · intro edge
    obtain ⟨target, found⟩ := successor_isSome_of_mem edge
    have same : target = p :=
      det.target_eq _ (mem_edges_of_successor found) _ edge rfl rfl
    rw [found, same]

theorem successor_lt (det : Deterministic d) (h : d.successor q c = some p) : p < d.size :=
  (det.ends _ (mem_edges_of_successor h)).2

end Deterministic

/-! ## Runs -/

theorem run_cons (d : Dfa) (q : Nat) (c : Char) (w : List Char) :
    d.run q (c :: w) = (d.successor q c).bind (d.run · w) := by
  rw [run]
  cases d.successor q c with
  | none => rfl
  | some next => rfl

theorem run_singleton (d : Dfa) (q : Nat) (c : Char) : d.run q [c] = d.successor q c := by
  rw [run_cons]
  cases d.successor q c with
  | none => rfl
  | some next => rfl

theorem run_append_singleton (d : Dfa) (q : Nat) (w : List Char) (c : Char) :
    d.run q (w ++ [c]) = (d.run q w).bind (d.successor · c) := by
  rw [run_append]
  simp only [run_singleton]

theorem acceptsFrom_cons (d : Dfa) (q : Nat) (c : Char) (w : List Char) :
    d.acceptsFrom q (c :: w) = (d.successor q c).any (d.acceptsFrom · w) := by
  rw [acceptsFrom, run_cons]
  cases d.successor q c with
  | none => rfl
  | some next => rfl

theorem acceptsFrom_append (d : Dfa) (q : Nat) (u v : List Char) :
    d.acceptsFrom q (u ++ v) = (d.run q u).any (d.acceptsFrom · v) := by
  rw [acceptsFrom, run_append]
  cases d.run q u with
  | none => rfl
  | some next => rfl

theorem acceptsFrom_iff : d.acceptsFrom q w = true ↔
    ∃ p, d.run q w = some p ∧ d.isAccepting p = true := by
  rw [acceptsFrom, Option.any_eq_true]

theorem run_lt (inside : ∀ e ∈ d.edges, e.target < d.size) (lt : q < d.size)
    (h : d.run q w = some p) : p < d.size := by
  induction w generalizing q with
  | nil => exact Option.some.inj h ▸ lt
  | cons c rest ih =>
      rw [run_cons] at h
      obtain ⟨next, step, onward⟩ := Option.bind_eq_some_iff.1 h
      exact ih (inside _ (mem_edges_of_successor step)) onward

theorem Deterministic.run_lt (det : Deterministic d) (lt : q < d.size) (h : d.run q w = some p) :
    p < d.size := Dfa.run_lt (fun e edge => (det.ends e edge).2) lt h

theorem mem_alphabet_of_run (symbols : ∀ e ∈ d.edges, e.symbol ∈ d.alphabet)
    (h : d.run q w = some p) : ∀ c ∈ w, c ∈ d.alphabet := by
  induction w generalizing q with
  | nil => exact fun c mem => absurd mem List.not_mem_nil
  | cons c rest ih =>
      rw [run_cons] at h
      obtain ⟨next, step, onward⟩ := Option.bind_eq_some_iff.1 h
      exact List.forall_mem_cons.2 ⟨symbols _ (mem_edges_of_successor step), ih onward⟩

end RegularLanguages.Dfa
