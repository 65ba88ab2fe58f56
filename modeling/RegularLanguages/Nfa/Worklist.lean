import RegularLanguages.Dfa.Indexed
import RegularLanguages.Nfa.Subset

/-! # The worklist of determinization

How the sets of states are found: a set that has been met waits in a queue until
its characters are followed, an index leads from each met set to the number of
its state, and states and transitions come to the automaton on the way.  The loop
takes sets from the queue until none waits.  Nothing bounds it from outside. -/
set_option autoImplicit false
namespace RegularLanguages.Subset

structure Worklist where
  /-- First in, first out. -/
  queue : List (List Nat)
  numbers : Std.HashMap (List Nat) Nat
  dfa : Dfa.Indexed

namespace Worklist

/-- Why the loop breaks off.  The last two would be faults of the loop itself. -/
inductive Stop where
  | limit (e : StateLimitExceeded)
  | unnumbered
  | refused (r : Dfa.Refusal)
deriving DecidableEq

def start (n : Nfa) (alphabet : List Char) : Worklist :=
  let set := n.closure [0]
  let dfa := Dfa.Indexed.new alphabet "S0"
  { queue := [set]
    numbers := (∅ : Std.HashMap (List Nat) Nat).insert set dfa.start
    dfa := if n.acceptsSome set then dfa.setAccepting dfa.start else dfa }

def full (w : Worklist) : Option Nat → Option StateLimitExceeded
  | none => none
  | some limit => if limit ≤ w.numbers.size then some ⟨limit⟩ else none

def enqueue (n : Nfa) (w : Worklist) (set : List Nat) : Worklist × Nat :=
  let (extended, q) := w.dfa.addState ("S" ++ w.numbers.size.repr)
  ({ queue := w.queue ++ [set]
     numbers := w.numbers.insert set q
     dfa := if n.acceptsSome set then extended.setAccepting q else extended }, q)

def meet (n : Nfa) (limit : Option Nat) (w : Worklist) (set : List Nat) :
    Except Stop (Worklist × Nat) :=
  match w.numbers[set]? with
  | some q => .ok (w, q)
  | none =>
      match w.full limit with
      | some e => .error (.limit e)
      | none => .ok (w.enqueue n set)

def arrive (n : Nfa) (limit : Option Nat) (source : Nat) (c : Char) (set : List Nat)
    (w : Worklist) : Except Stop Worklist :=
  match w.meet n limit set with
  | .error stop => .error stop
  | .ok (met, target) =>
      match met.dfa.addTransition ⟨source, c, target⟩ with
      | (extended, none) => .ok { met with dfa := extended }
      | (_, some r) => .error (.refused r)

def expand (n : Nfa) (limit : Option Nat) (source : Nat) (set : List Nat) :
    List Char → Worklist → Except Stop Worklist
  | [], w => .ok w
  | c :: rest, w =>
      match n.step c set with
      | [] => expand n limit source set rest w
      | next =>
          match w.arrive n limit source c (n.closure next) with
          | .ok w => expand n limit source set rest w
          | .error stop => .error stop

/-- One turn of the loop: the set that is taken and what follows from it. -/
def pop (n : Nfa) (alphabet : List Char) (limit : Option Nat) (w : Worklist) :
    Option (List Nat × Except Stop Worklist) :=
  match w.queue with
  | [] => none
  | set :: rest =>
      match w.numbers[set]? with
      | none => some (set, .error .unnumbered)
      | some source => some (set, expand n limit source set alphabet { w with queue := rest })

/-- The loop gets to a worklist after it has taken the sets `taken`. -/
inductive Reaches (n : Nfa) (alphabet : List Char) (limit : Option Nat) :
    List (List Nat) → Worklist → Prop where
  | start : Reaches n alphabet limit [] (start n alphabet)
  | take {taken : List (List Nat)} {w next : Worklist} {set : List Nat} :
      Reaches n alphabet limit taken w → w.pop n alphabet limit = some (set, .ok next) →
      Reaches n alphabet limit (taken ++ [set]) next

inductive Ends (n : Nfa) (alphabet : List Char) (limit : Option Nat) (w : Worklist) :
    Except StateLimitExceeded Dfa → Prop where
  | done : w.queue = [] → Ends n alphabet limit w (.ok w.dfa.bare)
  | cut {set : List Nat} {e : StateLimitExceeded} :
      w.pop n alphabet limit = some (set, .error (.limit e)) → Ends n alphabet limit w (.error e)

end Worklist

end RegularLanguages.Subset
