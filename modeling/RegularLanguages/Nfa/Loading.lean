import Mathlib.Data.List.Basic
import RegularLanguages.Nfa.Document

/-! # Reading a document while the automaton is built

Only the states and the start are looked at beforehand.  Then the automaton grows
with an index from names to the numbers of their states: it gets its states, then
marks, then edges, and each of the later entries is looked up and checked when
the automaton already has what comes from the earlier ones.  A mark or an edge
can be refused, if the index leads to a state that is not there. -/
set_option autoImplicit false
namespace RegularLanguages.Nfa

inductive Refusal where
  | table (e : TableError)
  | noState
deriving DecidableEq

structure Loading where
  automaton : Nfa
  index : Std.HashMap String Nat

namespace Loading

def start (name : String) : Loading := ⟨new, (∅ : Std.HashMap String Nat).insert name 0⟩

def addName (l : Loading) (name : String) : Loading :=
  match l.index[name]? with
  | some _ => l
  | none => ⟨l.automaton.addState, l.index.insert name l.automaton.size⟩

def mark (l : Loading) (name : String) : Except Refusal Loading :=
  match l.index[name]? with
  | none => .error (.table (.unknownAccepting name))
  | some q =>
      match l.automaton.setAccepting? q with
      | none => .error .noState
      | some marked => .ok { l with automaton := marked }

def marks (l : Loading) : List String → Except Refusal Loading
  | [] => .ok l
  | name :: rest =>
      match l.mark name with
      | .error refusal => .error refusal
      | .ok marked => marks marked rest

def addRow (l : Loading) (number : Nat) (row : Row) : Except Refusal Loading :=
  if row.source = "" ∨ row.target = "" then .error (.table (.incompleteTransition number))
  else
    match Label.ofText row.symbol with
    | .error e => .error (.table e)
    | .ok label =>
        match l.index[row.source]? with
        | none => .error (.table (.unknownSource row.source))
        | some source =>
            match l.index[row.target]? with
            | none => .error (.table (.unknownTarget row.target))
            | some target =>
                match l.automaton.addEdge? ⟨source, label, target⟩ with
                | (extended, true) => .ok { l with automaton := extended }
                | (_, false) => .error .noState

def addRows (l : Loading) (number : Nat) : List Row → Except Refusal Loading
  | [] => .ok l
  | row :: rest =>
      match l.addRow number row with
      | .error refusal => .error refusal
      | .ok extended => addRows extended (number + 1) rest

end Loading

def addEntry (n : Nfa) (text : String) : Nfa :=
  match symbolOfText? text with
  | some c => n.addSymbol c
  | none => n

def load (doc : Document) : Except Refusal Nfa :=
  if doc.states = [] then .error (.table .noStates)
  else if doc.start = "" then .error (.table .missingStart)
  else if doc.start ∉ doc.states then .error (.table (.unknownStart doc.start))
  else
    match (doc.states.foldl Loading.addName (.start doc.start)).marks doc.accepting with
    | .error refusal => .error refusal
    | .ok marked =>
        match marked.addRows 0 doc.transitions with
        | .error refusal => .error refusal
        | .ok l => .ok (doc.alphabet.foldl addEntry l.automaton)

end RegularLanguages.Nfa
