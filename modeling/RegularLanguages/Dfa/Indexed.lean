import Mathlib.Data.List.Basic
import RegularLanguages.Dfa.Operation

/-! # Automata with an index of their names

What a deterministic automaton is stored as: states and edges, the alphabet, the
number of the start, and an index from names to the numbers of their states.
Nothing ties the parts together but the operations.  Those that make another
automaton begin with its start state and add the states by their names and then
the transitions, so each name goes through the index. -/
set_option autoImplicit false
namespace RegularLanguages.Dfa

structure Indexed where
  start : Nat
  states : List State
  /-- Newest first. -/
  edges : List Edge
  index : Std.HashMap String Nat
  alphabet : List Char

inductive Refusal where
  | conflict (c : Conflict)
  | noState
  | table (e : TableError)
deriving DecidableEq

structure NamedEdge where
  source : String
  symbol : Char
  target : String

def named (d : Dfa) (e : Edge) : NamedEdge := ⟨d.idOf e.source, e.symbol, d.idOf e.target⟩

def Table.named (t : Table) (symbols : List Char) : List NamedEdge :=
  (t.transitions.zip symbols).map fun (row, c) => ⟨row.source, c, row.target⟩

namespace Indexed

/-- The automaton without what is derived from it. -/
def bare (d : Indexed) : Dfa := ⟨d.states, d.edges, d.alphabet⟩

/-! ## Building -/

def new (alphabet : List Char) (start : String) : Indexed where
  start := 0
  states := [⟨start, false⟩]
  edges := []
  index := (∅ : Std.HashMap String Nat).insert start 0
  alphabet := OrderedSet.ofList alphabet

def addState (d : Indexed) (id : String) : Indexed × Nat :=
  match d.index[id]? with
  | some q => (d, q)
  | none =>
      let q := d.states.length
      ({ d with states := d.states ++ [⟨id, false⟩], index := d.index.insert id q }, q)

def addStates (d : Indexed) : List String → Indexed × List Nat
  | [] => (d, [])
  | id :: rest =>
      let (extended, q) := d.addState id
      let (full, numbers) := addStates extended rest
      (full, q :: numbers)

def setAccepting (d : Indexed) (q : Nat) : Indexed :=
  { d with states := d.states.modify q fun s => { s with accepting := true } }

def mark (d : Indexed) (id : String) : Indexed :=
  let (extended, q) := d.addState id
  extended.setAccepting q

def addSymbol (d : Indexed) (c : Char) : Indexed :=
  { d with alphabet := OrderedSet.insert c d.alphabet }

/-- Adds a transition, and tells why if it is refused.  The alphabet learns the
character before the ends are looked for. -/
def addTransition (d : Indexed) (e : Edge) : Indexed × Option Refusal :=
  match d.bare.successor e.source e.symbol with
  | some existing =>
      if existing = e.target then (d, none)
      else if e.target < d.states.length then
        (d, some (.conflict ⟨d.bare.idOf e.source, e.symbol, d.bare.idOf existing,
          d.bare.idOf e.target⟩))
      else (d, some .noState)
  | none =>
      let told := d.addSymbol e.symbol
      if e.source < d.states.length ∧ e.target < d.states.length then
        ({ told with edges := e :: told.edges }, none)
      else (told, some .noState)

def addTransitions (d : Indexed) : List Edge → Except Refusal Indexed
  | [] => .ok d
  | e :: rest =>
      match d.addTransition e with
      | (extended, none) => addTransitions extended rest
      | (_, some refusal) => .error refusal

def addNamed (d : Indexed) : List NamedEdge → Except Refusal Indexed
  | [] => .ok d
  | e :: rest =>
      let (d₁, source) := d.addState e.source
      let (d₂, target) := d₁.addState e.target
      match d₂.addTransition ⟨source, e.symbol, target⟩ with
      | (extended, none) => addNamed extended rest
      | (_, some refusal) => .error refusal

/-! ## Making another automaton -/

def keep (d : Dfa) (m : Indexed) (q : Nat) : Indexed :=
  if d.isAccepting q then m.mark (d.idOf q) else (m.addState (d.idOf q)).1

def prune (d : Indexed) : Except Refusal Indexed :=
  let kept := Reach.reach d.bare.successors d.states.length [d.start]
  if kept.length = d.states.length then .ok d
  else
    (kept.foldl (keep d.bare) (new d.alphabet (d.bare.idOf d.start))).addNamed
      ((d.bare.transitions.filter fun e => e.source ∈ kept).map d.bare.named)

def merge (d : Indexed) (groups : List (List Nat)) : Except Refusal Indexed :=
  let names := d.bare.groupNames groups
  let (states, numbers) :=
    (new d.alphabet (names[groupOf groups d.start]?.getD "")).addStates names
  let marked := (groups.zip numbers).foldl
    (fun m (group, q) => if group.any d.bare.isAccepting then m.setAccepting q else m) states
  let number := fun q => numbers[groupOf groups q]?.getD 0
  marked.addTransitions
    (d.bare.transitions.map fun e => ⟨number e.source, e.symbol, number e.target⟩)

def minimize (d : Indexed) : Except Refusal Indexed := d.merge d.bare.equivalenceGroups

def ofTable (t : Table) : Except Refusal Indexed :=
  match t.validate with
  | .error e => .error (.table e)
  | .ok symbols =>
      let states := ((new symbols (t.start.getD "")).addStates t.states).1
      (t.accepting.foldl mark states).addNamed (t.named symbols)

def addSymbolText (d : Indexed) (text : String) : Indexed :=
  match text.toList with
  | [c] => d.addSymbol c
  | _ => d

def ofDocument (doc : Document) : Except Refusal Indexed :=
  match ofTable (tableOf doc) with
  | .error refusal => .error refusal
  | .ok d => .ok (doc.alphabet.foldl addSymbolText d)

/-! ## Sequences -/

def perform (d : Indexed) : Operation → Indexed
  | .new alphabet start => new alphabet start
  | .addState id => (d.addState id).1
  | .setAccepting q => d.setAccepting q
  | .addTransition e => (d.addTransition e).1
  | .addSymbol c => d.addSymbol c
  | .prune => d.prune.toOption.getD d
  | .minimize => d.minimize.toOption.getD d
  | .ofTable t => (ofTable t).toOption.getD d
  | .ofDocument doc => (ofDocument doc).toOption.getD d

def performAll (d : Indexed) (ops : List Operation) : Indexed := ops.foldl perform d

/-- The parts of the automaton fit together: the index leads from a name to the
one state that has it, no state has two edges for a character, the alphabet is
in order and knows every character, and the start is the first state. -/
structure Coherent (d : Indexed) : Prop where
  ids_nodup : (d.states.map (·.id)).Nodup
  index : ∀ id q, d.index[id]? = some q ↔ ∃ s : State, d.states[q]? = some s ∧ s.id = id
  ends : ∀ e ∈ d.edges, e.source < d.states.length ∧ e.target < d.states.length
  deterministic : d.edges.Pairwise fun e f => e.source = f.source → e.symbol ≠ f.symbol
  increasing : OrderedSet.Increasing d.alphabet
  symbols : ∀ e ∈ d.edges, e.symbol ∈ d.alphabet
  start : d.start = 0 ∧ d.start < d.states.length

end Indexed

end RegularLanguages.Dfa
