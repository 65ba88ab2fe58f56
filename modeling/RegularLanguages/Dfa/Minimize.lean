import RegularLanguages.Dfa.Partition

/-! # Merging states that no word tells apart

Every group of equivalent states becomes one state.  A state that is alone
keeps its name; the name of several is their names in order, joined by commas.
As names may hold commas themselves, a joined name that is taken gets `'` at
its end until it is free.  States that no word leads to are kept. -/
set_option autoImplicit false
namespace RegularLanguages.Dfa

def joinedName (d : Dfa) (group : List Nat) : String :=
  ",".intercalate ((group.map d.idOf).mergeSort (· ≤ ·))

/-- A name with as many `'` at its end as it takes to be free.  As many as
there are taken names are enough. -/
def freeName (taken : List String) : Nat → String → String
  | 0, name => name
  | tries + 1, name =>
      if name ∈ taken then freeName taken tries (name ++ "'") else name

def namesFrom (d : Dfa) (taken : List String) : List (List Nat) → List String
  | [] => []
  | [q] :: rest => d.idOf q :: namesFrom d taken rest
  | group :: rest =>
      let name := freeName taken taken.length (d.joinedName group)
      name :: namesFrom d (name :: taken) rest

/-- A name for every group.  The names of states that are alone are in use
from the beginning. -/
def groupNames (d : Dfa) (groups : List (List Nat)) : List String :=
  d.namesFrom ((groups.filter (·.length = 1)).flatMap (·.map d.idOf)) groups

/-- One state for each name, in the order of the names but for that of the
start, which comes first. -/
def namedStates (alphabet : List Char) (start : String) (names : List String) : Dfa :=
  names.foldl addState (new alphabet start)

def groupStates (d : Dfa) (groups : List (List Nat)) : Dfa :=
  let names := d.groupNames groups
  namedStates d.alphabet (names[groupOf groups 0]?.getD "") names

def groupState (names : List String) (states : Dfa) (g : Nat) : Nat :=
  (names[g]?.bind states.state?).getD 0

/-- Merges the members of every group.  Two targets for one state and character
are refused. -/
def merge (d : Dfa) (groups : List (List Nat)) : Except Conflict Dfa :=
  let names := d.groupNames groups
  let states := d.groupStates groups
  let accepting := (List.range groups.length).filter fun g => (groups[g]?.getD []).any d.isAccepting
  addTransitions (accepting.foldl (fun m g => m.setAccepting (groupState names states g)) states)
    (d.transitions.map fun e =>
      ⟨groupState names states (groupOf groups e.source), e.symbol,
        groupState names states (groupOf groups e.target)⟩)

def mergedState (d : Dfa) (q : Nat) : Nat :=
  let groups := d.equivalenceGroups
  groupState (d.groupNames groups) (d.groupStates groups) (groupOf groups q)

def minimize (d : Dfa) : Except Conflict Dfa := d.merge d.equivalenceGroups

end RegularLanguages.Dfa
