import RegularLanguages.Dfa.Indexed
import RegularLanguages.Proofs.Dfa.Built

/-! # The index of names keeps up with the operations

An indexed automaton represents one without an index if its parts are those of
that one, its start is the first state, and its index finds what a search
through the states finds (`Represents`).  Every operation takes a represented
automaton to a represented one (`Represents.perform`), so after any sequence of
operations the parts fit together and are those that the same sequence leads to
without an index. -/
set_option autoImplicit false
namespace RegularLanguages.Dfa

variable {d : Indexed} {m : Dfa} {e : Edge} {id : String} {q : Nat}

structure Represents (d : Indexed) (m : Dfa) : Prop where
  bare : d.bare = m
  wellFormed : WellFormed m
  start : d.start = 0
  index : ∀ id, d.index[id]? = m.state? id

/-! ## Names -/

theorem state?_append (m : Dfa) (s : State) (other : String) :
    ({ m with states := m.states ++ [s] } : Dfa).state? other =
      (m.state? other).or (if s.id = other then some m.size else none) := by
  simp only [state?, List.findIdx?_append, List.findIdx?_singleton, beq_iff_eq, size]
  by_cases same : s.id = other
  · simp [same]
  · simp [same]

theorem indexOf_of_state? (found : m.state? id = some q) : m.indexOf id = q := by
  rw [indexOf, found, Option.getD_some]

theorem state?_congr {n : Dfa} (ids : n.ids = m.ids) (id : String) : n.state? id = m.state? id := by
  rw [state?_eq, state?_eq, ids]

theorem exists_state? (known : id ∈ m.ids) : m.state? id = some (m.indexOf id) := by
  obtain ⟨q, found⟩ := Option.isSome_iff_exists.1 (state?_isSome_iff.2 known)
  rw [found, indexOf_of_state? found]

theorem state?_addState (found : m.state? id = some q) (other : String) :
    (m.addState other).state? id = some q := by
  rw [addState]
  split
  next => exact found
  next => rw [state?_append, found, Option.some_or]

theorem state?_foldl_addState (found : m.state? id = some q) (names : List String) :
    (names.foldl addState m).state? id = some q := by
  induction names generalizing m with
  | nil => exact found
  | cons name rest ih => exact ih (state?_addState found name)

/-! ## Building -/

theorem modify_concat {α : Type} (xs : List α) (x : α) (f : α → α) :
    (xs ++ [x]).modify xs.length f = xs ++ [f x] := by
  induction xs with
  | nil => rfl
  | cons y rest ih => simpa using ih

theorem setAccepting_append (r : Dfa) (id : String) :
    ({ r with states := r.states ++ [⟨id, false⟩] } : Dfa).setAccepting r.size =
      { r with states := r.states ++ [⟨id, true⟩] } := by
  rw [setAccepting, size]
  simp only [modify_concat]

theorem represents_new (alphabet : List Char) (start : String) :
    Represents (Indexed.new alphabet start) (Dfa.new alphabet start) where
  bare := rfl
  wellFormed := wellFormed_new alphabet start
  start := rfl
  index id := by
    by_cases same : start = id
    · simp [Indexed.new, Dfa.new, state?, same]
    · simp [Indexed.new, Dfa.new, state?, same]

namespace Represents

theorem addState_of_state? (h : Represents d m) (found : m.state? id = some q) :
    d.addState id = (d, q) := by
  rw [Indexed.addState, h.index, found]

theorem addState (h : Represents d m) (id : String) :
    Represents (d.addState id).1 (m.addState id) ∧
      (m.addState id).state? id = some (d.addState id).2 := by
  cases found : m.state? id with
  | some q =>
      have known : m.addState id = m := by rw [Dfa.addState, found]
      rw [h.addState_of_state? found, known]
      exact ⟨h, found⟩
  | none =>
      have fresh : m.addState id = { m with states := m.states ++ [⟨id, false⟩] } := by
        rw [Dfa.addState, found]
      have wf := h.wellFormed.addState id
      obtain rfl := h.bare
      rw [fresh] at wf ⊢
      rw [Indexed.addState, h.index, found]
      refine ⟨⟨rfl, wf, h.start, fun other => ?_⟩, ?_⟩
      · rw [state?_append, Std.HashMap.getElem?_insert, h.index]
        by_cases same : id = other
        · subst same
          rw [found, Option.none_or, if_pos rfl, if_pos (beq_self_eq_true id)]
          rfl
        · simp [same]
      · rw [state?_append, found, Option.none_or, if_pos rfl]
        rfl

theorem addStates (h : Represents d m) (names : List String) :
    Represents (d.addStates names).1 (names.foldl Dfa.addState m) ∧
      (d.addStates names).2 = names.map (names.foldl Dfa.addState m).indexOf := by
  induction names generalizing d m with
  | nil => exact ⟨h, rfl⟩
  | cons id rest ih =>
      obtain ⟨one, found⟩ := h.addState id
      obtain ⟨all, numbers⟩ := ih one
      refine ⟨all, ?_⟩
      rw [Indexed.addStates, List.map_cons]
      simp only [numbers]
      rw [List.foldl_cons, indexOf_of_state? (state?_foldl_addState found rest)]

theorem setAccepting (h : Represents d m) (q : Nat) :
    Represents (d.setAccepting q) (m.setAccepting q) where
  bare := by
    obtain rfl := h.bare
    rfl
  wellFormed := h.wellFormed.setAccepting q
  start := h.start
  index id := (h.index id).trans (state?_congr (ids_setAccepting m q) id).symm

theorem addFresh (h : Represents d m) (fresh : m.state? id = none) (accepting : Bool) :
    (d.addState id).2 = m.size ∧
      Represents
        (if accepting then (d.addState id).1.setAccepting (d.addState id).2
          else (d.addState id).1)
        { m with states := m.states ++ [⟨id, accepting⟩] } := by
  obtain ⟨added, number⟩ := h.addState id
  have appended : m.addState id = { m with states := m.states ++ [⟨id, false⟩] } := by
    rw [Dfa.addState, fresh]
  rw [appended, state?_append, fresh, Option.none_or, if_pos rfl] at number
  rw [appended] at added
  have last := Option.some.inj number
  refine ⟨last.symm, ?_⟩
  cases accepting with
  | false => exact added
  | true =>
      have marked := added.setAccepting m.size
      rw [setAccepting_append, last] at marked
      exact marked

theorem mark (h : Represents d m) (known : id ∈ m.ids) :
    Represents (d.mark id) (m.setAccepting (m.indexOf id)) := by
  rw [Indexed.mark, h.addState_of_state? (exists_state? known)]
  exact h.setAccepting _

theorem addSymbol (h : Represents d m) (c : Char) :
    Represents (d.addSymbol c) (m.addSymbol c) where
  bare := by
    obtain rfl := h.bare
    rfl
  wellFormed := h.wellFormed.addSymbol c
  start := h.start
  index := h.index

theorem addTransition_cases (h : Represents d m) (source : e.source < m.size)
    (target : e.target < m.size) :
    (∃ extended n, d.addTransition e = (extended, none) ∧ m.addTransition e = .ok n ∧
        Represents extended n ∧ n.states = m.states) ∨
      ∃ c, d.addTransition e = (d, some (.conflict c)) ∧ m.addTransition e = .error c := by
  obtain rfl := h.bare
  rw [Indexed.addTransition, Dfa.addTransition]
  cases leads : d.bare.successor e.source e.symbol with
  | some existing =>
      by_cases same : existing = e.target
      · exact .inl ⟨d, d.bare, if_pos same, if_pos same, h, rfl⟩
      · refine .inr ⟨_, ?_, if_neg same⟩
        simp only [if_neg same]
        exact if_pos target
  | none =>
      refine .inl ⟨_, _, if_pos ⟨source, target⟩, rfl, ⟨rfl, ?_, h.start, h.index⟩, rfl⟩
      exact h.wellFormed.link source target leads

theorem attempt (h : Represents d m) (e : Edge) :
    Represents (d.addTransition e).1 (m.attempt e) := by
  by_cases inside : e.source < m.size ∧ e.target < m.size
  · rw [Dfa.attempt]
    rcases h.addTransition_cases inside.1 inside.2 with
      ⟨extended, n, added, ok, represents, -⟩ | ⟨c, refused, error⟩
    · rw [added, ok]
      simp only [if_pos inside]
      exact represents
    · rw [refused, error]
      exact h
  · obtain rfl := h.bare
    rw [Dfa.attempt, Indexed.addTransition, Dfa.addTransition]
    cases leads : d.bare.successor e.source e.symbol with
    | some existing =>
        -- An edge has its ends, so the wanted target is another one.
        have edge := mem_edges_of_successor leads
        have differs : existing ≠ e.target := by
          rintro rfl
          exact inside (h.wellFormed.ends _ edge)
        simp only [if_neg differs]
        split <;> exact h
    | none =>
        simp only [if_neg inside]
        have outside : ¬(e.source < d.states.length ∧ e.target < d.states.length) := inside
        rw [if_neg outside]
        exact h.addSymbol e.symbol

end Represents

theorem represents_marked {alphabet : List Char} (increasing : OrderedSet.Increasing alphabet)
    (start : String) (accepting : Bool) :
    Represents
      (if accepting then (Indexed.new alphabet start).setAccepting 0
        else Indexed.new alphabet start)
      ⟨[⟨start, accepting⟩], [], alphabet⟩ := by
  have first := represents_new alphabet start
  cases accepting with
  | false => simpa [Dfa.new, increasing.ofList_eq] using first
  | true =>
      have marked := first.setAccepting 0
      simp only [Dfa.new, Dfa.setAccepting, increasing.ofList_eq] at marked
      exact marked

/-! ## Transitions one after the other -/

inductive Agree {ε : Type} : Except Refusal Indexed → Except ε Dfa → Prop where
  | ok {d : Indexed} {m : Dfa} : Represents d m → Agree (.ok d) (.ok m)
  | error {refusal : Refusal} {e : ε} : Agree (.error refusal) (.error e)

namespace Represents

variable {added : List Edge}

theorem addTransitions (h : Represents d m)
    (ends : ∀ e ∈ added, e.source < m.size ∧ e.target < m.size) :
    Agree (d.addTransitions added) (m.addTransitions added) := by
  induction added generalizing d m with
  | nil => exact .ok h
  | cons e rest ih =>
      obtain ⟨⟨source, target⟩, others⟩ := List.forall_mem_cons.1 ends
      rw [Indexed.addTransitions, Dfa.addTransitions]
      rcases h.addTransition_cases source target with
        ⟨extended, n, added, ok, represents, states⟩ | ⟨c, refused, error⟩
      · rw [added, ok]
        refine ih represents ?_
        rw [size, states]
        exact others
      · rw [refused, error]
        exact .error

end Represents

def edgeOf (m : Dfa) (e : NamedEdge) : Edge := ⟨m.indexOf e.source, e.symbol, m.indexOf e.target⟩

theorem edgeOf_congr {n : Dfa} (ids : n.ids = m.ids) : n.edgeOf = m.edgeOf := by
  funext e
  rw [edgeOf, edgeOf, indexOf, indexOf, indexOf, indexOf, state?_congr ids, state?_congr ids]

namespace Represents

variable {named : List NamedEdge}

theorem addNamed (h : Represents d m)
    (known : ∀ e ∈ named, e.source ∈ m.ids ∧ e.target ∈ m.ids) :
    Agree (d.addNamed named) (m.addTransitions (named.map m.edgeOf)) := by
  induction named generalizing d m with
  | nil => exact .ok h
  | cons e rest ih =>
      obtain ⟨⟨source, target⟩, others⟩ := List.forall_mem_cons.1 known
      have p := exists_state? source
      have q := exists_state? target
      have edge : m.edgeOf e = ⟨m.indexOf e.source, e.symbol, m.indexOf e.target⟩ := rfl
      rw [Indexed.addNamed, List.map_cons, Dfa.addTransitions]
      simp only [h.addState_of_state? p, h.addState_of_state? q, ← edge]
      rcases h.addTransition_cases (e := m.edgeOf e) (state?_lt p) (state?_lt q) with
        ⟨extended, n, added, ok, represents, states⟩ | ⟨c, refused, error⟩
      · have ids : n.ids = m.ids := congrArg (List.map State.id) states
        rw [added, ok, ← edgeOf_congr ids]
        exact ih represents (ids ▸ others)
      · rw [refused, error]
        exact .error

end Represents

end RegularLanguages.Dfa
