import RegularLanguages.Dfa.Document
import RegularLanguages.Dfa.Minimize
import RegularLanguages.Dfa.Prune

/-! # Sequences of operations

An operation that is refused leaves the automaton as it was, but for a
transition whose ends it does not have: the alphabet learns the character before
the ends are looked for.  An operation that makes another automaton goes on with
that one. -/
set_option autoImplicit false
namespace RegularLanguages.Dfa

inductive Operation where
  | new (alphabet : List Char) (start : String)
  | addState (id : String)
  | setAccepting (q : Nat)
  | addTransition (e : Edge)
  | addSymbol (c : Char)
  | prune
  | minimize
  | ofTable (t : Table)
  | ofDocument (doc : Document)

def attempt (d : Dfa) (e : Edge) : Dfa :=
  match d.addTransition e with
  | .error _ => d
  | .ok extended =>
      if e.source < d.size ∧ e.target < d.size then extended else d.addSymbol e.symbol

def perform (d : Dfa) : Operation → Dfa
  | .new alphabet start => new alphabet start
  | .addState id => d.addState id
  | .setAccepting q => d.setAccepting q
  | .addTransition e => d.attempt e
  | .addSymbol c => d.addSymbol c
  | .prune => d.prune.toOption.getD d
  | .minimize => d.minimize.toOption.getD d
  | .ofTable t => (ofTable t).toOption.getD d
  | .ofDocument doc => (ofDocument doc).toOption.getD d

def performAll (d : Dfa) (ops : List Operation) : Dfa := ops.foldl perform d

end RegularLanguages.Dfa
