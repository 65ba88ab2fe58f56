import RegularLanguages.Dfa.Basic
import RegularLanguages.Reach

/-! # Leaving out states that no word leads to

The states that remain keep their names and their order. -/
set_option autoImplicit false
namespace RegularLanguages.Dfa

def reachable (d : Dfa) : List Nat := Reach.reach d.successors d.size [0]

/-- The automaton of the reachable states.  It is the automaton itself where
all are reachable; otherwise the transitions are added anew, which refuses two
targets for one state and character. -/
def prune (d : Dfa) : Except Conflict Dfa :=
  let kept := d.reachable
  if kept.length = d.size then .ok d
  else
    addTransitions ⟨kept.filterMap (d.states[·]?), [], d.alphabet⟩
      ((d.transitions.filter fun e => e.source ∈ kept).map fun e =>
        ⟨kept.idxOf e.source, e.symbol, kept.idxOf e.target⟩)

end RegularLanguages.Dfa
