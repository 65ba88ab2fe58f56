import RegularLanguages.Nfa.Basic
import RegularLanguages.Regex.Basic

/-! # Automata from expressions, by Thompson's construction

Every part of an expression becomes a fragment: states of its own with one
entry and one exit, joined to the fragments around it by edges that read
nothing.  No edge of a fragment enters its entry or leaves its exit.  The start
state of the automaton leads to the entry of the whole, whose exit is the only
accepting state. -/
set_option autoImplicit false
namespace RegularLanguages

structure Fragment where
  entry : Nat
  exit : Nat
  edges : List Nfa.Edge
  /-- The first number after those of the fragment's states. -/
  next : Nat

namespace Fragment

def ofLabel (base : Nat) (label : Label) : Fragment :=
  ⟨base, base + 1, [⟨base, label, base + 1⟩], base + 2⟩

mutual
def ofRegex (base : Nat) : Regex → Fragment
  | .epsilon => ofLabel base .epsilon
  | .any => ofLabel base .any
  | .lit c => ofLabel base (.symbol c)
  | .cat items => ofItems base items
  | .alt branches =>
      let inner := ofBranches base (base + 1) (base + 2) branches
      if branches.isEmpty then ⟨base, base + 1, [⟨base, .epsilon, base + 1⟩], base + 2⟩ else inner
  | .star inner =>
      let f := ofRegex (base + 2) inner
      ⟨base, base + 1,
        ⟨base, .epsilon, f.entry⟩ :: ⟨f.exit, .epsilon, base + 1⟩ ::
          ⟨base, .epsilon, base + 1⟩ :: ⟨f.exit, .epsilon, f.entry⟩ :: f.edges,
        f.next⟩
  | .plus inner =>
      let f := ofRegex (base + 2) inner
      ⟨base, base + 1,
        ⟨base, .epsilon, f.entry⟩ :: ⟨f.exit, .epsilon, base + 1⟩ ::
          ⟨f.exit, .epsilon, f.entry⟩ :: f.edges,
        f.next⟩
  | .opt inner =>
      let f := ofRegex (base + 2) inner
      ⟨base, base + 1,
        ⟨base, .epsilon, f.entry⟩ :: ⟨f.exit, .epsilon, base + 1⟩ ::
          ⟨base, .epsilon, base + 1⟩ :: f.edges,
        f.next⟩

/-- Fragments one after the other, each exit leading to the next entry. -/
def ofItems (base : Nat) : List Regex → Fragment
  | [] => ofLabel base .epsilon
  | [item] => ofRegex base item
  | item :: second :: rest =>
      let f := ofRegex base item
      let g := ofItems f.next (second :: rest)
      ⟨f.entry, g.exit, ⟨f.exit, .epsilon, g.entry⟩ :: (f.edges ++ g.edges), g.next⟩

def ofBranches (entry exit base : Nat) : List Regex → Fragment
  | [] => ⟨entry, exit, [], base⟩
  | branch :: rest =>
      let f := ofRegex base branch
      let g := ofBranches entry exit f.next rest
      ⟨entry, exit,
        ⟨entry, .epsilon, f.entry⟩ :: ⟨f.exit, .epsilon, exit⟩ :: (f.edges ++ g.edges),
        g.next⟩
end

end Fragment

namespace Nfa

/-- Adds the states and edges of a fragment that starts at the automaton's
size. -/
def attach (n : Nfa) (f : Fragment) : Nfa :=
  { n with
    size := f.next
    edges := f.edges ++ n.edges
    alphabet := OrderedSet.union (f.edges.filterMap (·.label.symbol?)) n.alphabet }

def thompson (r : Regex) : Nfa :=
  let f := Fragment.ofRegex 1 r
  ((new.attach f).addEdge ⟨0, .epsilon, f.entry⟩).setAccepting f.exit

end Nfa

end RegularLanguages
