import RegularLanguages.Nfa.Basic
import RegularLanguages.Reach

/-! # Running an automaton on sets of states

`closure` adds to a set of states what its members lead to without reading;
`step` follows one character.  A word is accepted when its characters lead from
the closure of the start to a set with an accepting state.  The run gives up
as soon as a character leads nowhere. -/
set_option autoImplicit false
namespace RegularLanguages.Nfa

/-- Where the edges of `q` with exactly this label lead. -/
def targets (n : Nfa) (label : Label) (q : Nat) : List Nat :=
  (n.edges.filter fun e => e.source == q && e.label == label).map (·.target)

def closure (n : Nfa) (states : List Nat) : List Nat :=
  Reach.reach (n.targets .epsilon) n.size states

/-- Where edges with exactly this label lead from a list of states: one target
for each edge of each listed state. -/
def move (n : Nfa) (label : Label) (states : List Nat) : List Nat :=
  states.flatMap (n.targets label)

def step (n : Nfa) (c : Char) (states : List Nat) : List Nat :=
  n.move (.symbol c) states ++ n.move .any states

def acceptsSome (n : Nfa) (states : List Nat) : Bool := states.any n.isAccepting

/-- Whether a word leads from a closed set to an accepting state. -/
def acceptsFrom (n : Nfa) (states : List Nat) : List Char → Bool
  | [] => n.acceptsSome states
  | c :: rest =>
      match n.step c states with
      | [] => false
      | next => acceptsFrom n (n.closure next) rest

def accepts (n : Nfa) (word : List Char) : Bool := n.acceptsFrom (n.closure [0]) word

/-! ## Questions about listed states, which have to exist -/

def closure? (n : Nfa) (states : List Nat) : Option (List Nat) :=
  if states.all n.has then some (n.closure states) else none

def acceptsSome? (n : Nfa) : List Nat → Option Bool
  | [] => some false
  | q :: rest =>
      if n.has q then if n.isAccepting q then some true else acceptsSome? n rest else none

end RegularLanguages.Nfa
