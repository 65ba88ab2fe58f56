/-! # Written automata

Tables and documents name the states of an automaton and list its transitions.
A document also names the start and the alphabet; automata of both kinds are
written this way. -/
set_option autoImplicit false
namespace RegularLanguages

structure Row where
  source : String
  symbol : String
  target : String
deriving DecidableEq

def Row.le (a b : Row) : Bool :=
  a.source < b.source ||
    (a.source == b.source && (a.symbol < b.symbol || (a.symbol == b.symbol && a.target ≤ b.target)))

structure Document where
  alphabet : List String
  states : List String
  start : String
  accepting : List String
  transitions : List Row
deriving DecidableEq

end RegularLanguages
