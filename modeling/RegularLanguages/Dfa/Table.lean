import RegularLanguages.Dfa.Basic
import RegularLanguages.Document
import RegularLanguages.TableError

/-! # Deterministic automata from tables

A table names its states, its start, the accepting ones and the transitions.
Its faults are looked for in a fixed order: no states, no start or one that is
not listed, an accepting state that is not listed, and then for each transition
in turn an empty field, a symbol that is not one character, an end that is not
listed, and a second target for the same state and symbol. -/
set_option autoImplicit false
namespace RegularLanguages.Dfa

structure Table where
  states : List String
  start : Option String
  accepting : List String
  transitions : List Row
deriving DecidableEq

namespace Table

def checkRow (states : List String) (earlier : List Row) (index : Nat) (row : Row) :
    Except TableError Char :=
  if row.source = "" ∨ row.symbol = "" ∨ row.target = "" then .error (.incompleteTransition index)
  else
    match row.symbol.toList with
    | [c] =>
        if row.source ∉ states then .error (.unknownSource row.source)
        else if row.target ∉ states then .error (.unknownTarget row.target)
        else
          match earlier.find? fun e => e.source = row.source ∧ e.symbol = row.symbol with
          | none => .ok c
          | some e =>
              if e.target = row.target then .ok c
              else .error (.nonDeterministic row.source row.symbol)
    | _ => .error (.invalidSymbol row.symbol)

def checkRows (states : List String) (earlier : List Row) (index : Nat) :
    List Row → Except TableError (List Char)
  | [] => .ok []
  | row :: rest =>
      match checkRow states earlier index row with
      | .error e => .error e
      | .ok c =>
          match checkRows states (earlier ++ [row]) (index + 1) rest with
          | .error e => .error e
          | .ok symbols => .ok (c :: symbols)

def checkStart (t : Table) : Except TableError String :=
  match t.start with
  | none => .error .missingStart
  | some start =>
      if start = "" then .error .missingStart
      else if start ∈ t.states then .ok start
      else .error (.unknownStart start)

/-- The first fault of a table, or the symbol of every transition. -/
def validate (t : Table) : Except TableError (List Char) :=
  if t.states = [] then .error .noStates
  else
    match t.checkStart with
    | .error e => .error e
    | .ok _ =>
        match t.accepting.find? (· ∉ t.states) with
        | some state => .error (.unknownAccepting state)
        | none => checkRows t.states [] 0 t.transitions

end Table

/-- The number of the state with a given name, and 0 where there is none. -/
def indexOf (d : Dfa) (id : String) : Nat := (d.state? id).getD 0

/-- The states and transitions of a table and no others, over the symbols that
the transitions use. -/
def ofTable (t : Table) : Except TableError Dfa :=
  match t.validate with
  | .error e => .error e
  | .ok symbols =>
      let states := t.states.foldl addState (new symbols (t.start.getD ""))
      let marked := t.accepting.foldl (fun d id => d.setAccepting (d.indexOf id)) states
      let edges := (t.transitions.zip symbols).map fun (row, c) =>
        ⟨states.indexOf row.source, c, states.indexOf row.target⟩
      match marked.addTransitions edges with
      | .ok d => .ok d
      | .error conflict => .error (.nonDeterministic conflict.source conflict.symbol.toString)

end RegularLanguages.Dfa
