import RegularLanguages.OrderedSet

/-! # What a graph leads to

`reach next size start` is the set of nodes that some path of `next` steps
leads to from a member of `start`, the members themselves included.  The search
goes by layers: a round adds the successors of the nodes that the round before
it added.  A graph with `size` nodes has no more than `size` layers. -/
set_option autoImplicit false
namespace RegularLanguages.Reach

def layer (next : Nat → List Nat) (seen frontier : List Nat) : List Nat :=
  OrderedSet.ofList ((frontier.flatMap next).filter (· ∉ seen))

/-- Layer after layer, until one is empty or the rounds are used up. -/
def spread (next : Nat → List Nat) : Nat → List Nat → List Nat → List Nat
  | 0, seen, _ => seen
  | rounds + 1, seen, frontier =>
      match layer next seen frontier with
      | [] => seen
      | fresh => spread next rounds (OrderedSet.union fresh seen) fresh

def reach (next : Nat → List Nat) (size : Nat) (start : List Nat) : List Nat :=
  let members := OrderedSet.ofList start
  spread next size members members

end RegularLanguages.Reach
