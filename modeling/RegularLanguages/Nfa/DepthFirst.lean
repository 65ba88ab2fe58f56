import RegularLanguages.Bounded
import RegularLanguages.Nfa.Run

/-! # Closing a list of states by a depth-first search

The list is extended in place: states that were listed before are left out, and
then the edges that read nothing are followed from one state after the other,
those met last first.  A state is met once, so no bound is set on the turns: a
turn takes a state from the stack, and one that comes onto the stack takes a
place in the set of visited states (`pending_lt`).  A number that is no
state is refused. -/
set_option autoImplicit false
namespace RegularLanguages.Nfa

structure DepthFirst where
  visited : BoundedSet
  /-- In the order in which they were met. -/
  found : List Nat
  /-- The states whose edges have not been followed, newest first. -/
  stack : List Nat

namespace DepthFirst

def start (size : Nat) : DepthFirst := ⟨BoundedSet.empty size, [], []⟩

/-- Meets a state, which is noted unless it has been visited. -/
def meet (s : DepthFirst) (q : Nat) : Option DepthFirst :=
  match s.visited.insert? q with
  | none => none
  | some (_, false) => some s
  | some (visited, true) => some ⟨visited, s.found ++ [q], q :: s.stack⟩

def meetAll (s : DepthFirst) : List Nat → Option DepthFirst
  | [] => some s
  | q :: rest =>
      match s.meet q with
      | none => none
      | some met => met.meetAll rest

def pending (s : DepthFirst) : Nat := s.visited.room + s.stack.length

theorem pending_meet {s met : DepthFirst} {q : Nat} (h : s.meet q = some met) :
    met.pending = s.pending := by
  rw [meet] at h
  split at h
  next => cases h
  next => exact Option.some.inj h ▸ rfl
  next inserted =>
    obtain rfl := Option.some.inj h
    have room := BoundedSet.room_insert? inserted
    simp only [pending, List.length_cons]
    omega

theorem pending_meetAll {s met : DepthFirst} {states : List Nat}
    (h : s.meetAll states = some met) : met.pending = s.pending := by
  induction states generalizing s with
  | nil => exact Option.some.inj h ▸ rfl
  | cons q rest ih =>
      rw [meetAll] at h
      split at h
      next => cases h
      next first => exact (ih h).trans (pending_meet first)

theorem pending_lt {s next : DepthFirst} {q : Nat} {rest states : List Nat}
    (waits : s.stack = q :: rest) (met : meetAll { s with stack := rest } states = some next) :
    next.pending < s.pending := by
  rw [pending_meetAll met, pending, pending, waits, List.length_cons]
  exact Nat.lt_succ_self _

def drain (n : Nfa) (s : DepthFirst) : Option (List Nat) :=
  match waits : s.stack with
  | [] => some s.found
  | q :: rest =>
      match met : meetAll { s with stack := rest } (n.targets .epsilon q) with
      | none => none
      | some next =>
          have := pending_lt waits met
          drain n next
termination_by s.pending

end DepthFirst

def extendToClosure? (n : Nfa) (states : List Nat) : Option (List Nat) :=
  match (DepthFirst.start n.size).meetAll states with
  | none => none
  | some s => (s.drain n).map fun found => found.mergeSort (· ≤ ·)

end RegularLanguages.Nfa
