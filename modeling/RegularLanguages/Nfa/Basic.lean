import RegularLanguages.Nfa.Label
import RegularLanguages.OrderedSet

/-! # Automata with free choice

An automaton whose states are the numbers below `size`, with 0 as the start.
The order of its edges has no meaning, and an edge may occur several times.
The alphabet holds the characters on the edges that were added with `addEdge`
and those that were added by themselves; `.any` adds none. -/
set_option autoImplicit false
namespace RegularLanguages

structure Nfa.Edge where
  source : Nat
  label : Label
  target : Nat
deriving DecidableEq

structure Nfa where
  size : Nat
  edges : List Nfa.Edge
  /-- Strictly increasing. -/
  accepting : List Nat
  /-- Strictly increasing. -/
  alphabet : List Char
deriving DecidableEq

namespace Nfa

def new : Nfa := ⟨1, [], [], []⟩

def has (n : Nfa) (q : Nat) : Bool := q < n.size

def addState (n : Nfa) : Nfa := { n with size := n.size + 1 }

def addSymbol (n : Nfa) (c : Char) : Nfa :=
  { n with alphabet := OrderedSet.insert c n.alphabet }

def addLabel (n : Nfa) (label : Label) : Nfa :=
  match label.symbol? with
  | some c => n.addSymbol c
  | none => n

/-- Adds an edge without telling the alphabet. -/
def link (n : Nfa) (e : Edge) : Nfa := { n with edges := e :: n.edges }

def addEdge (n : Nfa) (e : Edge) : Nfa := (n.addLabel e.label).link e

def setAccepting (n : Nfa) (q : Nat) : Nfa :=
  { n with accepting := OrderedSet.insert q n.accepting }

def ofEdges (size : Nat) (edges : List Edge) (accepting : List Nat) : Nfa where
  size := size
  edges := edges
  accepting := OrderedSet.ofList accepting
  alphabet := OrderedSet.ofList (edges.filterMap (·.label.symbol?))

def isAccepting (n : Nfa) (q : Nat) : Bool := n.accepting.contains q

def hasEpsilon (n : Nfa) : Bool := n.edges.any (·.label == .epsilon)

/-- The characters on the edges, whether or not the alphabet knows them. -/
def literals (n : Nfa) : List Char := OrderedSet.ofList (n.edges.filterMap (·.label.symbol?))

/-! ## Operations that ask for states of the automaton -/

/-- Adds an edge if it has both its ends.  The alphabet learns the character
first, so it knows it also when the edge is refused. -/
def addEdge? (n : Nfa) (e : Edge) : Nfa × Bool :=
  if n.has e.source && n.has e.target then (n.addEdge e, true) else (n.addLabel e.label, false)

def link? (n : Nfa) (e : Edge) : Option Nfa :=
  if n.has e.source && n.has e.target then some (n.link e) else none

def setAccepting? (n : Nfa) (q : Nat) : Option Nfa :=
  if n.has q then some (n.setAccepting q) else none

end Nfa

end RegularLanguages
