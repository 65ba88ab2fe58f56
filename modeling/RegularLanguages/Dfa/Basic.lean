import RegularLanguages.OrderedSet

/-! # Automata without choice

A deterministic automaton that may leave transitions undefined.  Its states are
numbered in the order in which they were added, carry names, and the first is
the start.  Its edges are kept newest first.  `addTransition` keeps at most one
edge for a state and a character; `link` adds an edge as it is, and where it
has given a state several edges for a character the newest is followed. -/
set_option autoImplicit false
namespace RegularLanguages

structure Dfa.State where
  id : String
  accepting : Bool
deriving DecidableEq

structure Dfa.Edge where
  source : Nat
  symbol : Char
  target : Nat
deriving DecidableEq

structure Dfa where
  states : List Dfa.State
  /-- Newest first. -/
  edges : List Dfa.Edge
  /-- Strictly increasing. -/
  alphabet : List Char
deriving DecidableEq

namespace Dfa

structure Conflict where
  source : String
  symbol : Char
  existing : String
  wanted : String
deriving DecidableEq

def new (alphabet : List Char) (start : String) : Dfa :=
  ⟨[⟨start, false⟩], [], OrderedSet.ofList alphabet⟩

def size (d : Dfa) : Nat := d.states.length

/-- The edges in the order in which they were added. -/
def transitions (d : Dfa) : List Edge := d.edges.reverse

def state? (d : Dfa) (id : String) : Option Nat := d.states.findIdx? (·.id == id)

/-- The name of a state; a number without a state has the empty name. -/
def idOf (d : Dfa) (q : Nat) : String := (d.states[q]?.map (·.id)).getD ""

def isAccepting (d : Dfa) (q : Nat) : Bool := d.states[q]?.any (·.accepting)

def acceptingStates (d : Dfa) : List Nat := (List.range d.size).filter d.isAccepting

/-! ## Building -/

/-- Adds a state unless one has that name. -/
def addState (d : Dfa) (id : String) : Dfa :=
  match d.state? id with
  | some _ => d
  | none => { d with states := d.states ++ [⟨id, false⟩] }

def setAccepting (d : Dfa) (q : Nat) : Dfa :=
  { d with states := d.states.modify q fun s => { s with accepting := true } }

def addSymbol (d : Dfa) (c : Char) : Dfa :=
  { d with alphabet := OrderedSet.insert c d.alphabet }

/-- Adds an edge with no check and without telling the alphabet. -/
def link (d : Dfa) (e : Edge) : Dfa := { d with edges := e :: d.edges }

/-- The newest edge of a state for a character. -/
def edge? (d : Dfa) (q : Nat) (c : Char) : Option Edge :=
  d.edges.find? fun e => e.source == q && e.symbol == c

def successor (d : Dfa) (q : Nat) (c : Char) : Option Nat := (d.edge? q c).map (·.target)

def successors (d : Dfa) (q : Nat) : List Nat :=
  (d.edges.filter (·.source == q)).map (·.target)

/-- The number of the newest edge of a state for a character, counted from the
oldest edge of the automaton. -/
def edgeIndex? (d : Dfa) (q : Nat) (c : Char) : Option Nat :=
  (d.edges.findIdx? fun e => e.source == q && e.symbol == c).map (d.edges.length - 1 - ·)

/-- Adds a transition.  One that is there already is not repeated, and a second
target for the same state and character is refused. -/
def addTransition (d : Dfa) (e : Edge) : Except Conflict Dfa :=
  match d.successor e.source e.symbol with
  | some existing =>
      if existing = e.target then .ok d
      else .error ⟨d.idOf e.source, e.symbol, d.idOf existing, d.idOf e.target⟩
  | none => .ok ((d.addSymbol e.symbol).link e)

def addTransitions (d : Dfa) : List Edge → Except Conflict Dfa
  | [] => .ok d
  | e :: rest =>
      match d.addTransition e with
      | .ok extended => addTransitions extended rest
      | .error conflict => .error conflict

/-! ## Running -/

def run (d : Dfa) (q : Nat) : List Char → Option Nat
  | [] => some q
  | c :: rest =>
      match d.successor q c with
      | some next => run d next rest
      | none => none

def accepts (d : Dfa) (word : List Char) : Bool := (d.run 0 word).any d.isAccepting

end Dfa

end RegularLanguages
