import RegularLanguages.Dfa.Basic

/-! # Partitions of the states

A partition is a list of groups.  Refining it splits every group by the
transitions of its members: members stay together when they have the same
characters leading to the same groups.  A missing transition sets a state apart
from one that has it.  A partition that refining does not split is stable; from
the division into accepting and other states this leads to the groups of states
that no word tells apart. -/
set_option autoImplicit false
namespace RegularLanguages.Dfa

def groupOf (groups : List (List Nat)) (q : Nat) : Nat := groups.findIdx (·.contains q)

def stepLe (a b : Char × Nat) : Bool := a.1 < b.1 || (a.1 == b.1 && a.2 ≤ b.2)

/-- The characters of a state and the groups they lead to, in order. -/
def signature (d : Dfa) (groups : List (List Nat)) (q : Nat) : List (Char × Nat) :=
  ((d.edges.filter (·.source == q)).map fun e => (e.symbol, groupOf groups e.target)).mergeSort
    stepLe

/-- Puts a state with those of its signature, or starts a new part with it. -/
def classify (signature : List (Char × Nat)) (q : Nat) :
    List (List (Char × Nat) × List Nat) → List (List (Char × Nat) × List Nat)
  | [] => [(signature, [q])]
  | (key, members) :: rest =>
      if key = signature then (key, members ++ [q]) :: rest
      else (key, members) :: classify signature q rest

def split (d : Dfa) (groups : List (List Nat)) (group : List Nat) : List (List Nat) :=
  (group.foldl (fun parts q => classify (d.signature groups q) q parts) []).map (·.2)

def refine (d : Dfa) (groups : List (List Nat)) : List (List Nat) := groups.flatMap (d.split groups)

def stabilize (d : Dfa) : Nat → List (List Nat) → List (List Nat)
  | 0, groups => groups
  | rounds + 1, groups =>
      let refined := d.refine groups
      if refined.length = groups.length then groups else stabilize d rounds refined

def initialGroups (d : Dfa) : List (List Nat) :=
  let states := List.range d.size
  [states.filter d.isAccepting, states.filter (!d.isAccepting ·)].filter (· ≠ [])

/-- The groups of states that no word tells apart.  There are at most as many
groups as states, so as many rounds are enough. -/
def equivalenceGroups (d : Dfa) : List (List Nat) := d.stabilize d.size d.initialGroups

end RegularLanguages.Dfa
