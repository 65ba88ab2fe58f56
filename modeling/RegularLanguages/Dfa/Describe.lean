import RegularLanguages.Dfa.Basic
import RegularLanguages.Text.Quoted

/-! # Texts that show an automaton

A description has all parts in one line, the states and edges in the order in
which they were added.

A drawing in the DOT language has one statement a line.  Accepting states are
double circles; an arrow from a point leads to the start.  Edges come by source
and then by character.  Names and labels are quoted, so none can end its
statement. -/
set_option autoImplicit false
namespace RegularLanguages.Dfa

def describeEdge (d : Dfa) (e : Edge) : String :=
  d.idOf e.source ++ " --- " ++ Text.quotedChar e.symbol ++ " --> " ++ d.idOf e.target

def describe (d : Dfa) : String :=
  let names := fun ids => Text.bracketed (ids.map Text.quoted)
  "DFA \x7b alphabet: " ++ Text.bracketed (d.alphabet.map Text.quotedChar) ++
    ", state_count: " ++ d.size.repr ++
    ", states: " ++ names (d.states.map (·.id)) ++
    ", initial_state: " ++ Text.quoted (d.idOf 0) ++
    ", final_states: " ++ names (d.acceptingStates.map d.idOf) ++
    ", edge_count: " ++ d.edges.length.repr ++
    ", edges: " ++ names (d.transitions.map d.describeEdge) ++ " \x7d"

/-! ## Drawings -/

def Edge.le (a b : Edge) : Bool :=
  a.source < b.source || (a.source == b.source && a.symbol ≤ b.symbol)

def quotedId (d : Dfa) (q : Nat) : String := Text.quoted (d.idOf q)

def acceptingLine (d : Dfa) : List String :=
  match d.acceptingStates with
  | [] => []
  | states => ["node [shape = doublecircle]; " ++ " ".intercalate (states.map d.quotedId) ++ ";"]

def edgeLine (d : Dfa) (e : Edge) : String :=
  d.quotedId e.source ++ " -> " ++ d.quotedId e.target ++
    " [ label=" ++ Text.quoted e.symbol.toString ++ " ];"

def graphvizLines (d : Dfa) : List String :=
  ["digraph finite_state_machine \x7b",
    "fontname=\"Helvetica,Arial,sans-serif\"",
    "node [fontname=\"Helvetica,Arial,sans-serif\"]",
    "edge [fontname=\"Helvetica,Arial,sans-serif\"]",
    "rankdir=LR;",
    "node [shape=point,label=\"\"]START"] ++
  d.acceptingLine ++
  ["node [shape = circle];"] ++
  (List.range d.size).map (fun q => d.quotedId q ++ ";") ++
  ["START -> " ++ d.quotedId 0 ++ ";"] ++
  (d.transitions.mergeSort Edge.le).map d.edgeLine ++
  ["\x7d"]

def graphviz (d : Dfa) : String := String.join (d.graphvizLines.map (· ++ "\n"))

end RegularLanguages.Dfa
