import RegularLanguages.Dfa.Basic
import RegularLanguages.Regex.Simplify

/-! # An expression for an automaton, by eliminating states

The states get two companions, an initial one that leads to the start and a
final one that the accepting states lead to, both without reading.  A cell of
the table holds an expression for the paths between two states, if there are
any.  Eliminating a state puts the paths through it into the cells of the
others: in, around as often as one likes, and out.  When all states are
eliminated, the cell from the initial to the final one describes the words that
the automaton accepts. -/
set_option autoImplicit false
namespace RegularLanguages.Dfa

/-- Adds the branches of an expression to those of another, without repeating
one. -/
def alternate : Option Regex → Regex → Regex
  | none, new => new
  | some existing, new =>
      .alternation ((Regex.spliceBranches new).foldl Distinct.add (Regex.spliceBranches existing))

/-- A square table of expressions, in which a missing one stands for no path. -/
structure Grid where
  rows : Array (Array (Option Regex))

namespace Grid

def ofFn (size : Nat) (f : Nat → Nat → Option Regex) : Grid :=
  ⟨Array.ofFn fun i : Fin size => Array.ofFn fun j : Fin size => f i j⟩

def cell (g : Grid) (i j : Nat) : Option Regex := (g.rows[i]?.bind (·[j]?)).join

def size (g : Grid) : Nat := g.rows.size

def through (g : Grid) (k i j : Nat) : Option Regex :=
  match g.cell i k, g.cell k k, g.cell k j with
  | some before, none, some after => some (.concat [before, after])
  | some before, some loop, some after => some (.concat [before, .star loop, after])
  | _, _, _ => none

/-- The table without the paths that begin or end in `k`, and with those
through `k` in its place. -/
def eliminate (g : Grid) (k : Nat) : Grid :=
  ofFn g.size fun i j =>
    if i = k ∨ j = k then none
    else
      match g.through k i j with
      | none => g.cell i j
      | some path => some (alternate (g.cell i j) path)

end Grid

def directPaths (d : Dfa) (i j : Nat) : Option Regex :=
  (d.transitions.filter fun e => e.source == i && e.target == j).foldl
    (fun known e => some (alternate known (.lit e.symbol))) none

/-- The table before any state is eliminated.  The initial and the final
companion come after the states. -/
def pathGrid (d : Dfa) : Grid :=
  Grid.ofFn (d.size + 2) fun i j =>
    if i = d.size then if j = 0 then some .epsilon else none
    else if j = d.size + 1 then if d.isAccepting i then some .epsilon else none
    else d.directPaths i j

def eliminated (d : Dfa) (count : Nat) : Grid := (List.range count).foldl Grid.eliminate d.pathGrid

/-- An expression for the words that the automaton accepts, or none if it
accepts none. -/
def toRegex? (d : Dfa) : Option Regex :=
  ((d.eliminated d.size).cell d.size (d.size + 1)).map Regex.simplify

end RegularLanguages.Dfa
