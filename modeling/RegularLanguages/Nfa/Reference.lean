import RegularLanguages.Nfa.Thompson
import RegularLanguages.Regex.Parser
import RegularLanguages.Text.Quoted

/-! # Automata to compare with

Thompson's construction on an automaton that is there already: states and edges
are added one after the other, whatever the automaton holds, and those of a part
come between those that the whole adds before and after it.  What is told of a
part is where it is entered and where it is left.

A pattern that is taken to be right has a reference automaton. -/
set_option autoImplicit false
namespace RegularLanguages

namespace Nfa

structure Terminals where
  entry : Nat
  exit : Nat

def addEdges (n : Nfa) (edges : List Edge) : Nfa := edges.foldl addEdge n

def addTerminals (n : Nfa) : Nfa × Terminals := (n.addState.addState, ⟨n.size, n.size + 1⟩)

def addSingle (n : Nfa) (label : Label) : Nfa × Terminals :=
  let (extended, ends) := n.addTerminals
  (extended.addEdge ⟨ends.entry, label, ends.exit⟩, ends)

def bridges : List Terminals → List Edge
  | first :: second :: rest => ⟨first.exit, .epsilon, second.entry⟩ :: bridges (second :: rest)
  | _ => []

def across (ends part : Terminals) : List Edge :=
  [⟨ends.entry, .epsilon, part.entry⟩, ⟨part.exit, .epsilon, ends.exit⟩]

def around (skip loop : Bool) (ends part : Terminals) : List Edge :=
  across ends part ++ ((if skip then [⟨ends.entry, .epsilon, ends.exit⟩] else []) ++
    if loop then [⟨part.exit, .epsilon, part.entry⟩] else [])

mutual
def grow (n : Nfa) : Regex → Nfa × Terminals
  | .epsilon => n.addSingle .epsilon
  | .any => n.addSingle .any
  | .lit c => n.addSingle (.symbol c)
  | .cat items =>
      let (grown, parts) := n.growAll items
      let joined := grown.addEdges (bridges parts)
      match parts.head?, parts.getLast? with
      | some first, some last => (joined, ⟨first.entry, last.exit⟩)
      | _, _ => joined.addSingle .epsilon
  | .alt branches =>
      let (extended, ends) := n.addTerminals
      let grown := extended.growBetween ends branches
      (if branches.isEmpty then grown.addEdge ⟨ends.entry, .epsilon, ends.exit⟩ else grown, ends)
  | .star inner =>
      let (extended, ends) := n.addTerminals
      let (grown, part) := extended.grow inner
      (grown.addEdges (around true true ends part), ends)
  | .plus inner =>
      let (extended, ends) := n.addTerminals
      let (grown, part) := extended.grow inner
      (grown.addEdges (around false true ends part), ends)
  | .opt inner =>
      let (extended, ends) := n.addTerminals
      let (grown, part) := extended.grow inner
      (grown.addEdges (around true false ends part), ends)

def growAll (n : Nfa) : List Regex → Nfa × List Terminals
  | [] => (n, [])
  | item :: rest =>
      let (first, part) := n.grow item
      let (grown, parts) := first.growAll rest
      (grown, part :: parts)

def growBetween (n : Nfa) (ends : Terminals) : List Regex → Nfa
  | [] => n
  | branch :: rest =>
      let (grown, part) := n.grow branch
      growBetween (grown.addEdges (across ends part)) ends rest
end

/-- The construction that begins with the start state alone. -/
def grown (r : Regex) : Nfa :=
  let (whole, ends) := new.grow r
  (whole.addEdge ⟨0, .epsilon, ends.entry⟩).setAccepting ends.exit

end Nfa

/-! ## Patterns -/

structure BadReference where
  pattern : String
  cause : Regex.ParseError
deriving DecidableEq

def BadReference.message (e : BadReference) : String :=
  "reference pattern " ++ Text.quoted e.pattern ++ " does not parse: " ++ e.cause.message

def Nfa.reference (pattern : String) : Except BadReference Nfa :=
  match Regex.parse pattern with
  | .ok r => .ok (thompson r)
  | .error cause => .error ⟨pattern, cause⟩

end RegularLanguages
