import RegularLanguages.Proofs.Nfa.Discovery

/-! # Automata that are determinized alike

The search for sets of states asks three things of a set: whether it is empty,
whether it is one of those found before, and in the end whether it accepts.
Where two automata give the same answers about the sets of the same words
(`SameRuns`), the searches stay in step.  The found sets correspond one by one
and the edges are equal (`Matches`), so both end in the same automaton or at the
limit (`determinize_eq`). -/
set_option autoImplicit false
namespace RegularLanguages.Nfa

open Subset Discovery

structure SameRuns (n m : Nfa) : Prop where
  stuck : ∀ word, n.statesAfter word = [] ↔ m.statesAfter word = []
  meet : ∀ u v, n.statesAfter u = n.statesAfter v ↔ m.statesAfter u = m.statesAfter v
  accepts : ∀ word, n.accepts word = m.accepts word

def Twins (n m : Nfa) (S T : List Nat) : Prop :=
  ∃ word, n.statesAfter word = S ∧ m.statesAfter word = T

structure Matches (n m : Nfa) (d e : Discovery) : Prop where
  sets : List.Forall₂ (Twins n m) d.sets e.sets
  edges : d.edges = e.edges

def InStep (n m : Nfa) (x y : Except StateLimitExceeded Discovery) : Prop :=
  (∃ d e, x = .ok d ∧ y = .ok e ∧ Matches n m d e) ∨ ∃ e, x = .error e ∧ y = .error e

variable {n m : Nfa} {S T : List Nat} {d e : Discovery}
  {settings : Subset.Settings}

theorem Twins.step (h : Twins n m S T) (c : Char) :
    Twins n m (n.closure (n.step c S)) (m.closure (m.step c T)) := by
  obtain ⟨word, rfl, rfl⟩ := h
  refine ⟨word ++ [c], ?_, ?_⟩
  · exact n.statesAfter_append_singleton word c
  · exact m.statesAfter_append_singleton word c

namespace SameRuns

theorem eq_iff (same : SameRuns n m) {S' T' : List Nat} (h : Twins n m S T)
    (h' : Twins n m S' T') : S = S' ↔ T = T' := by
  obtain ⟨u, rfl, rfl⟩ := h
  obtain ⟨v, rfl, rfl⟩ := h'
  exact same.meet u v

theorem nil_iff (same : SameRuns n m) (h : Twins n m S T) : S = [] ↔ T = [] := by
  obtain ⟨word, rfl, rfl⟩ := h
  exact same.stuck word

theorem step_nil_iff (same : SameRuns n m) (h : Twins n m S T) (c : Char) :
    n.step c S = [] ↔ m.step c T = [] := by
  have closed := same.nil_iff (h.step c)
  rwa [closure_eq_nil, closure_eq_nil] at closed

theorem acceptsSome_eq (same : SameRuns n m) (h : Twins n m S T) :
    n.acceptsSome S = m.acceptsSome T := by
  obtain ⟨word, rfl, rfl⟩ := h
  rw [← accepts_eq, ← accepts_eq]
  exact same.accepts word

theorem idxOf?_eq (same : SameRuns n m) (h : Twins n m S T) {sets others : List (List Nat)}
    (each : List.Forall₂ (Twins n m) sets others) : sets.idxOf? S = others.idxOf? T := by
  induction each with
  | nil => rfl
  | @cons A B rest rest' first _ ih =>
      rw [List.idxOf?_cons, List.idxOf?_cons, ih]
      by_cases here : A = S
      · have there : B = T := (same.eq_iff first h).1 here
        simp [here, there]
      · have elsewhere : B ≠ T := fun there => here ((same.eq_iff first h).2 there)
        simp [here, elsewhere]

theorem arrive (same : SameRuns n m) (h : Twins n m S T) (matched : Matches n m d e)
    (limit : Option Nat) (source : Nat) (c : Char) :
    InStep n m (d.arrive limit source c S) (e.arrive limit source c T) := by
  have lengths := matched.sets.length_eq
  have full : d.full limit = e.full limit := by cases limit <;> simp [Discovery.full, lengths]
  unfold Discovery.arrive
  rw [same.idxOf?_eq h matched.sets, matched.edges, full, lengths]
  cases e.sets.idxOf? T with
  | some target => exact .inl ⟨_, _, rfl, rfl, matched.sets, rfl⟩
  | none =>
      cases e.full limit with
      | some refused => exact .inr ⟨refused, rfl, rfl⟩
      | none => exact .inl ⟨_, _, rfl, rfl, List.rel_append matched.sets (.cons h .nil), rfl⟩

theorem expand (same : SameRuns n m) (h : Twins n m S T) (limit : Option Nat) (source : Nat)
    (alphabet : List Char) (matched : Matches n m d e) :
    InStep n m (Discovery.expand n limit source S alphabet d)
      (Discovery.expand m limit source T alphabet e) := by
  induction alphabet generalizing d e with
  | nil => exact .inl ⟨d, e, rfl, rfl, matched⟩
  | cons c rest ih =>
      have leads := same.step_nil_iff h c
      have arrived := same.arrive (h.step c) matched limit source c
      unfold Discovery.expand
      -- The character is skipped by both searches or followed by both.
      cases left : n.step c S with
      | nil =>
          rw [leads.1 left]
          exact ih matched
      | cons p ps =>
          cases right : m.step c T with
          | nil => simp [leads.2 right] at left
          | cons q qs =>
              rw [left, right] at arrived
              obtain ⟨d', e', ok, ok', later⟩ | ⟨refused, error, error'⟩ := arrived
              · simp only [ok, ok']
                exact ih later
              · simp only [error, error']
                exact .inr ⟨refused, rfl, rfl⟩

theorem explore (same : SameRuns n m) (alphabet : List Char) (limit : Option Nat) (rounds : Nat)
    (source : Nat) (matched : Matches n m d e) :
    InStep n m (Discovery.explore n alphabet limit rounds source d)
      (Discovery.explore m alphabet limit rounds source e) := by
  induction rounds generalizing source d e with
  | zero => exact .inl ⟨d, e, rfl, rfl, matched⟩
  | succ rounds ih =>
      have lengths := matched.sets.length_eq
      unfold Discovery.explore
      -- Both have found as many sets, so both take the next one or both stop.
      by_cases more : source < d.sets.length
      · have more' : source < e.sets.length := by omega
        have twins : Twins n m d.sets[source] e.sets[source] := matched.sets.get more more'
        rw [List.getElem?_eq_getElem more, List.getElem?_eq_getElem more']
        obtain ⟨d', e', ok, ok', later⟩ | ⟨refused, error, error'⟩ :=
          same.expand twins limit source alphabet matched
        · simp only [ok, ok']
          exact ih (source + 1) later
        · simp only [error, error']
          exact .inr ⟨refused, rfl, rfl⟩
      · rw [List.getElem?_eq_none (by omega), List.getElem?_eq_none (by omega)]
        exact .inl ⟨d, e, rfl, rfl, matched⟩

theorem toDfa_eq (same : SameRuns n m) (matched : Matches n m d e) (alphabet : List Char) :
    d.toDfa n alphabet = e.toDfa m alphabet := by
  have lengths := matched.sets.length_eq
  unfold toDfa
  rw [matched.edges, Dfa.mk.injEq]
  refine ⟨?_, rfl, rfl⟩
  apply List.ext_getElem
  · simp [lengths]
  · intro i left right
    rw [List.length_mapIdx] at left right
    have twins : Twins n m d.sets[i] e.sets[i] := matched.sets.get left right
    simp only [List.getElem_mapIdx]
    rw [same.acceptsSome_eq twins]

theorem determinize_eq (same : SameRuns n m) (size : n.size = m.size)
    (alphabet : n.inferAlphabet settings.fallback = m.inferAlphabet settings.fallback) :
    n.determinize settings = m.determinize settings := by
  have start : Matches n m ⟨[n.closure [0]], []⟩ ⟨[m.closure [0]], []⟩ :=
    ⟨.cons ⟨[], rfl, rfl⟩ .nil, rfl⟩
  have searched := same.explore (m.inferAlphabet settings.fallback) settings.limit
    (Nat.pow 2 m.size) 0 start
  unfold determinize discover
  rw [size, alphabet]
  obtain ⟨d, e, ok, ok', matched⟩ | ⟨refused, error, error'⟩ := searched
  · simp only [ok, ok']
    rw [same.toDfa_eq matched]
  · simp only [error, error']

end SameRuns

end RegularLanguages.Nfa
