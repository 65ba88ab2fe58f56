/-! # What can be wrong with a table

A table lists the states and transitions of an automaton by name.  Each cause
carries the names it is about as the table spells them. -/
set_option autoImplicit false
namespace RegularLanguages

inductive TableError where
  | noStates
  | missingStart
  | unknownStart (state : String)
  | unknownAccepting (state : String)
  /-- The transition with this number, counted from 0, leaves a field empty. -/
  | incompleteTransition (index : Nat)
  | invalidSymbol (symbol : String)
  | unknownSource (state : String)
  | unknownTarget (state : String)
  | nonDeterministic (source symbol : String)
deriving DecidableEq

namespace TableError

def message : TableError → String
  | noStates => "The automaton must have at least one state"
  | missingStart => "The automaton must have a start state"
  | unknownStart state => "Start state '" ++ state ++ "' is not in the list of states"
  | unknownAccepting state => "Accepting state '" ++ state ++ "' is not in the list of states"
  | incompleteTransition index =>
      "Transition " ++ index.repr ++ " is incomplete: 'from', 'symbol' and 'to' are required"
  | invalidSymbol symbol => "Transition symbol '" ++ symbol ++ "' must be exactly one character"
  | unknownSource state => "Transition source state '" ++ state ++ "' is not in the list of states"
  | unknownTarget state => "Transition target state '" ++ state ++ "' is not in the list of states"
  | nonDeterministic source symbol =>
      "Non-deterministic transition: state '" ++ source ++
        "' has more than one target on symbol '" ++ symbol ++ "'"

end TableError

end RegularLanguages
