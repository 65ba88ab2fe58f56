import RegularLanguages.Dfa.Document
import RegularLanguages.Dfa.Minimize
import RegularLanguages.Dfa.Prune
import RegularLanguages.Fault

/-! # What is said of automata without choice

`Built d` says that `d` comes from the operations, of which those that can be
refused have succeeded; a refused one leaves the automaton as it was.
`WellFormed d` says what every operation keeps: names are different, a state has
one transition at most for a character, and the alphabet is in order and knows
every character.

Two states are indistinguishable when every word leads from both or from neither,
and to acceptance from both or from neither.  Two automata are isomorphic when a
renumbering of the states takes the one to the other.

The states get two companions, an initial one that leads to the start and a final
one that the accepting states lead to, both without reading.  A route takes at
least one step, and all the states between its ends are below a bound. -/
set_option autoImplicit false
namespace RegularLanguages.Dfa

inductive Built : Dfa → Prop where
  | new (alphabet : List Char) (start : String) : Built (new alphabet start)
  | addState {d : Dfa} (id : String) : Built d → Built (d.addState id)
  | setAccepting {d : Dfa} {q : Nat} : Built d → q < d.size → Built (d.setAccepting q)
  | addSymbol {d : Dfa} (c : Char) : Built d → Built (d.addSymbol c)
  | addTransition {d m : Dfa} {e : Edge} :
      Built d → e.source < d.size → e.target < d.size → d.addTransition e = .ok m → Built m
  | prune {d m : Dfa} : Built d → d.prune = .ok m → Built m
  | minimize {d m : Dfa} : Built d → d.minimize = .ok m → Built m
  | ofTable {t : Table} {d : Dfa} : ofTable t = .ok d → Built d
  | ofDocument {doc : Document} {d : Dfa} : ofDocument doc = .ok d → Built d

structure WellFormed (d : Dfa) : Prop where
  size_pos : 0 < d.size
  ids_nodup : (d.states.map (·.id)).Nodup
  edges_nodup : d.edges.Nodup
  ends : ∀ e ∈ d.edges, e.source < d.size ∧ e.target < d.size
  deterministic : ∀ e ∈ d.edges, ∀ f ∈ d.edges,
    e.source = f.source → e.symbol = f.symbol → e.target = f.target
  increasing : OrderedSet.Increasing d.alphabet
  symbols : ∀ e ∈ d.edges, e.symbol ∈ d.alphabet

theorem wellFormed_new (alphabet : List Char) (start : String) :
    WellFormed (Dfa.new alphabet start) where
  size_pos := by simp [Dfa.new, size]
  ids_nodup := by simp [Dfa.new]
  edges_nodup := by simp [Dfa.new]
  ends := by simp [Dfa.new]
  deterministic := by simp [Dfa.new]
  increasing := OrderedSet.increasing_ofList alphabet
  symbols := by simp [Dfa.new]

/-! ## Automata and states that behave alike -/

def acceptsFrom (d : Dfa) (q : Nat) (word : List Char) : Bool := (d.run q word).any d.isAccepting

def Indistinguishable (d : Dfa) (p q : Nat) : Prop :=
  ∀ word, (d.run p word).isSome = (d.run q word).isSome ∧
    d.acceptsFrom p word = d.acceptsFrom q word

structure Renumbering (d e : Dfa) (f : Nat → Nat) : Prop where
  size : e.size = d.size
  inside : ∀ q < d.size, f q < e.size
  injective : ∀ p < d.size, ∀ q < d.size, f p = f q → p = q
  start : f 0 = 0
  accepting : ∀ q < d.size, e.isAccepting (f q) = d.isAccepting q
  successor : ∀ q < d.size, ∀ c, e.successor (f q) c = (d.successor q c).map f

def Isomorphic (d e : Dfa) : Prop := ∃ f, Renumbering d e f

theorem accepts_eq_acceptsFrom (d : Dfa) (word : List Char) :
    d.accepts word = d.acceptsFrom 0 word := rfl

theorem run_append (d : Dfa) (q : Nat) (u v : List Char) :
    d.run q (u ++ v) = (d.run q u).bind (d.run · v) := by
  induction u generalizing q with
  | nil => rfl
  | cons c rest ih =>
      simp only [List.cons_append, run]
      cases d.successor q c with
      | none => rfl
      | some next => exact ih next

/-! ## Routes between states -/

/-- One step between states or companions, and what it spells. -/
inductive Step (d : Dfa) : Nat → List Char → Nat → Prop where
  | edge {e : Edge} : e ∈ d.edges → Step d e.source [e.symbol] e.target
  | enter : Step d d.size [] 0
  | leave {q : Nat} : d.isAccepting q = true → Step d q [] (d.size + 1)

/-- A route whose inner states are below `bound`, and what it spells. -/
inductive Route (d : Dfa) (bound : Nat) : Nat → List Char → Nat → Prop where
  | step {i j : Nat} {w : List Char} : Step d i w j → Route d bound i w j
  | through {i k j : Nat} {u v : List Char} :
      Step d i u k → k < bound → Route d bound k v j → Route d bound i (u ++ v) j

theorem Route.mono {d : Dfa} {bound more i j : Nat} {w : List Char} (h : Route d bound i w j)
    (le : bound ≤ more) : Route d more i w j := by
  induction h with
  | step s => exact .step s
  | through s lt _ ih => exact .through s (Nat.lt_of_lt_of_le lt le) ih

/-! ## Checks on a table -/

namespace Table

def rowChecks (states : List String) (earlier : List Row) (row : Row) : List Check :=
  [⟨row.source = "" ∨ row.symbol = "" ∨ row.target = "", .incompleteTransition earlier.length⟩,
    ⟨row.symbol.length ≠ 1, .invalidSymbol row.symbol⟩,
    ⟨row.source ∉ states, .unknownSource row.source⟩,
    ⟨row.target ∉ states, .unknownTarget row.target⟩,
    ⟨∃ e ∈ earlier, e.source = row.source ∧ e.symbol = row.symbol ∧ e.target ≠ row.target,
      .nonDeterministic row.source row.symbol⟩]

def rowsChecks (states : List String) (earlier : List Row) : List Row → List Check
  | [] => []
  | row :: rest => rowChecks states earlier row ++ rowsChecks states (earlier ++ [row]) rest

def checks (t : Table) : List Check :=
  [⟨t.states = [], .noStates⟩,
    ⟨t.start = none ∨ t.start = some "", .missingStart⟩,
    ⟨t.start.getD "" ∉ t.states, .unknownStart (t.start.getD "")⟩] ++
  t.accepting.map (fun state => ⟨state ∉ t.states, .unknownAccepting state⟩) ++
  rowsChecks t.states [] t.transitions

end Table

end RegularLanguages.Dfa
