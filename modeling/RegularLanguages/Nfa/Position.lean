import RegularLanguages.Nfa.Basic
import RegularLanguages.Regex.Basic

/-! # Automata from expressions, by positions

Every character and every `.` of an expression is a position, numbered from
left to right, and becomes a state; every edge reads something.  From the start
an edge leads to each position that can come first, from a position to each
that can follow it, with the label of the position it leads to.  Positions that
can come last accept, and so does the start if the empty word matches. -/
set_option autoImplicit false
namespace RegularLanguages

structure Positions where
  labels : List Label
  first : List Nat
  last : List Nat
  follow : List (Nat × Nat)
  nullable : Bool

namespace Positions

def none (nullable : Bool) : Positions := ⟨[], [], [], [], nullable⟩

def single (base : Nat) (label : Label) : Positions := ⟨[label], [base], [base], [], false⟩

def pairs (before after : List Nat) : List (Nat × Nat) :=
  before.flatMap fun p => after.map fun q => (p, q)

def followedBy (a b : Positions) : Positions where
  labels := a.labels ++ b.labels
  first := if a.nullable then a.first ++ b.first else a.first
  last := if b.nullable then a.last ++ b.last else b.last
  follow := a.follow ++ b.follow ++ pairs a.last b.first
  nullable := a.nullable && b.nullable

def orElse (a b : Positions) : Positions where
  labels := a.labels ++ b.labels
  first := a.first ++ b.first
  last := a.last ++ b.last
  follow := a.follow ++ b.follow
  nullable := a.nullable || b.nullable

def repeated (a : Positions) : Positions := { a with follow := a.follow ++ pairs a.last a.first }

def optional (a : Positions) : Positions := { a with nullable := true }

mutual
def ofRegex (base : Nat) : Regex → Positions
  | .epsilon => none true
  | .any => single base .any
  | .lit c => single base (.symbol c)
  | .cat items => ofItems base items
  | .alt branches =>
      if branches.isEmpty then none true else ofBranches base branches
  | .star inner => (ofRegex base inner).repeated.optional
  | .plus inner => (ofRegex base inner).repeated
  | .opt inner => (ofRegex base inner).optional

def ofItems (base : Nat) : List Regex → Positions
  | [] => none true
  | item :: rest =>
      let a := ofRegex base item
      a.followedBy (ofItems (base + a.labels.length) rest)

def ofBranches (base : Nat) : List Regex → Positions
  | [] => none false
  | branch :: rest =>
      let a := ofRegex base branch
      a.orElse (ofBranches (base + a.labels.length) rest)
end

/-- Edges from a state to positions, with the labels of the positions.  The
positions are those from 1 up. -/
def edgesTo (ps : Positions) (source : Nat) (positions : List Nat) : List Nfa.Edge :=
  (OrderedSet.ofList positions).filterMap fun q =>
    ps.labels[q - 1]?.map fun label => ⟨source, label, q⟩

def after (ps : Positions) (p : Nat) : List Nat :=
  (ps.follow.filter (·.1 == p)).map (·.2)

end Positions

def Nfa.ofPositions (r : Regex) : Nfa :=
  let ps := Positions.ofRegex 1 r
  let size := ps.labels.length + 1
  let edges := ps.edgesTo 0 ps.first ++
    (List.range' 1 ps.labels.length).flatMap fun p => ps.edgesTo p (ps.after p)
  .ofEdges size edges (if ps.nullable then 0 :: ps.last else ps.last)

end RegularLanguages
