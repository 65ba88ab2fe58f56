import RegularLanguages.Dfa.Basic
import RegularLanguages.Nfa.Run

/-! # Determinization by sets of states

A state of the deterministic automaton stands for the closed set of states that
a word leads to.  The sets are taken in the order of their discovery, and of
each one the characters of the alphabet in theirs; the set found as number `i`
becomes the state `S` followed by `i`.  A character that leads nowhere gets no
transition.  A bound on the number of states stops the search before a state
too many is added; the start state is there in any case. -/
set_option autoImplicit false
namespace RegularLanguages

structure StateLimitExceeded where
  limit : Nat
deriving DecidableEq

def StateLimitExceeded.message (e : StateLimitExceeded) : String :=
  "Subset construction exceeded the limit of " ++ e.limit.repr ++ " DFA states"

namespace Subset

/-- The characters that stand in for an alphabet where an automaton names
none. -/
def defaultFallback : List Char := ['a', 'b', '0', '1']

structure Settings where
  fallback : List Char := defaultFallback
  limit : Option Nat := none

/-- The sets found so far in the order of their discovery, and the edges
between them, newest first. -/
structure Discovery where
  sets : List (List Nat)
  edges : List Dfa.Edge

namespace Discovery

def full (d : Discovery) : Option Nat → Option StateLimitExceeded
  | none => none
  | some limit => if limit ≤ d.sets.length then some ⟨limit⟩ else none

def arrive (d : Discovery) (limit : Option Nat) (source : Nat) (c : Char) (set : List Nat) :
    Except StateLimitExceeded Discovery :=
  match d.sets.idxOf? set with
  | some target => .ok { d with edges := ⟨source, c, target⟩ :: d.edges }
  | none =>
      match d.full limit with
      | some e => .error e
      | none => .ok ⟨d.sets ++ [set], ⟨source, c, d.sets.length⟩ :: d.edges⟩

def expand (n : Nfa) (limit : Option Nat) (source : Nat) (set : List Nat) :
    List Char → Discovery → Except StateLimitExceeded Discovery
  | [], d => .ok d
  | c :: rest, d =>
      match n.step c set with
      | [] => expand n limit source set rest d
      | next =>
          match d.arrive limit source c (n.closure next) with
          | .ok d => expand n limit source set rest d
          | .error e => .error e

/-- Expands the found sets from number `source` on, until none is left. -/
def explore (n : Nfa) (alphabet : List Char) (limit : Option Nat) :
    Nat → Nat → Discovery → Except StateLimitExceeded Discovery
  | 0, _, d => .ok d
  | rounds + 1, source, d =>
      match d.sets[source]? with
      | none => .ok d
      | some set =>
          match expand n limit source set alphabet d with
          | .ok d => explore n alphabet limit rounds (source + 1) d
          | .error e => .error e

def toDfa (d : Discovery) (n : Nfa) (alphabet : List Char) : Dfa where
  states := d.sets.mapIdx fun i set => ⟨"S" ++ i.repr, n.acceptsSome set⟩
  edges := d.edges
  alphabet := alphabet

end Discovery

end Subset

namespace Nfa

/-- The alphabet for determinization: the automaton's own, else the characters
on its edges, else the fallback. -/
def inferAlphabet (n : Nfa) (fallback : List Char) : List Char :=
  if n.alphabet ≠ [] then n.alphabet
  else if n.literals ≠ [] then n.literals
  else OrderedSet.ofList fallback

/-- The sets that words over the alphabet lead to.  An automaton with `k` states
has fewer than `2 ^ k` of them. -/
def discover (n : Nfa) (settings : Subset.Settings) :
    Except StateLimitExceeded Subset.Discovery :=
  Subset.Discovery.explore n (n.inferAlphabet settings.fallback) settings.limit
    (Nat.pow 2 n.size) 0 ⟨[n.closure [0]], []⟩

def determinize (n : Nfa) (settings : Subset.Settings) : Except StateLimitExceeded Dfa :=
  match n.discover settings with
  | .ok found => .ok (found.toDfa n (n.inferAlphabet settings.fallback))
  | .error e => .error e

end Nfa

end RegularLanguages
