import RegularLanguages.Distinct
import RegularLanguages.Document
import RegularLanguages.Nfa.Basic

/-! # The written form of an automaton with free choice

States are written as `q` and their number.  Reading takes any names; the start
becomes state 0 and the others follow in the order of their first occurrence.
Faults are looked for in a fixed order: no states, no start, a start that is not
listed, an accepting state that is not listed, and then for each transition in
turn a missing end, a label of more than one character, and an end that is not
listed. -/
set_option autoImplicit false
namespace RegularLanguages.Nfa

def stateName (q : Nat) : String := "q" ++ q.repr

def Edge.le (a b : Edge) : Bool :=
  a.source < b.source ||
    (a.source == b.source &&
      (a.label.rank < b.label.rank || (a.label.rank == b.label.rank && a.target ≤ b.target)))

def Edge.row (e : Edge) : Row := ⟨stateName e.source, e.label.text, stateName e.target⟩

def document (n : Nfa) : Document where
  alphabet := n.alphabet.map Char.toString
  states := (List.range n.size).map stateName
  start := stateName 0
  accepting := n.accepting.map stateName
  transitions := (n.edges.mergeSort Edge.le).map Edge.row

def readRow (names : List String) (index : Nat) (row : Row) : Except TableError Edge :=
  if row.source = "" ∨ row.target = "" then .error (.incompleteTransition index)
  else
    match Label.ofText row.symbol with
    | .error e => .error e
    | .ok label =>
        match names.idxOf? row.source, names.idxOf? row.target with
        | none, _ => .error (.unknownSource row.source)
        | some _, none => .error (.unknownTarget row.target)
        | some source, some target => .ok ⟨source, label, target⟩

def readRows (names : List String) (index : Nat) : List Row → Except TableError (List Edge)
  | [] => .ok []
  | row :: rest =>
      match readRow names index row with
      | .error e => .error e
      | .ok edge =>
          match readRows names (index + 1) rest with
          | .error e => .error e
          | .ok edges => .ok (edge :: edges)

def symbolOfText? (text : String) : Option Char :=
  match Label.ofText text with
  | .ok label => label.symbol?
  | .error _ => none

def ofDocument (doc : Document) : Except TableError Nfa :=
  if doc.states = [] then .error .noStates
  else if doc.start = "" then .error .missingStart
  else if doc.start ∉ doc.states then .error (.unknownStart doc.start)
  else
    match doc.accepting.find? (· ∉ doc.states) with
    | some state => .error (.unknownAccepting state)
    | none =>
        let names := Distinct.ofList (doc.start :: doc.states)
        match readRows names 0 doc.transitions with
        | .error e => .error e
        | .ok edges =>
            .ok ((doc.alphabet.filterMap symbolOfText?).foldl addSymbol
              (ofEdges names.length edges (doc.accepting.map names.idxOf)))

end RegularLanguages.Nfa
