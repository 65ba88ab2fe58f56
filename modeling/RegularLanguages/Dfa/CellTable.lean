import RegularLanguages.Dfa.Elimination

/-! # Eliminating states in one table

The cells of the table are kept row by row in one array, and every change is made
in place.  To eliminate a state its own cell is emptied, then its column, then its
row, and what was in them is put together and added to the cells of the others.
Reading or changing a place that the array does not have is refused. -/
set_option autoImplicit false
namespace RegularLanguages.Dfa

structure Entry where
  source : Nat
  target : Nat
  path : Regex

/-- A square table in which a missing expression stands for no path. -/
structure CellTable where
  size : Nat
  cells : Array (Option Regex)
  square : cells.size = size * size

namespace CellTable

def blank (size : Nat) : CellTable :=
  ⟨size, Array.replicate (size * size) none, Array.size_replicate⟩

def place (t : CellTable) (i j : Nat) : Nat := i * t.size + j

def cell (t : CellTable) (i j : Nat) : Option Regex := (t.cells[t.place i j]?).join

def put (t : CellTable) (i j : Nat) (inside : t.place i j < t.cells.size) (x : Option Regex) :
    CellTable :=
  { t with
    cells := t.cells.set (t.place i j) x
    square := (Array.size_set inside).trans t.square }

/-- Empties a cell, and tells what was in it. -/
def take? (t : CellTable) (i j : Nat) : Option (Option Regex × CellTable) :=
  if inside : t.place i j < t.cells.size then
    some (t.cells[t.place i j], t.put i j inside none)
  else none

def add? (t : CellTable) (e : Entry) : Option CellTable :=
  if inside : t.place e.source e.target < t.cells.size then
    some (t.put e.source e.target inside
      (some (alternate t.cells[t.place e.source e.target] e.path)))
  else none

def addAll? (t : CellTable) (entries : List Entry) : Option CellTable := entries.foldlM add? t

/-- Empties the numbered cells of a row or a column, and tells what was in those
that held something. -/
def takeAll? (line : Nat → Nat × Nat) : List Nat → CellTable →
    Option (List (Nat × Regex) × CellTable)
  | [], t => some ([], t)
  | q :: rest, t => do
      let (found, t) ← t.take? (line q).1 (line q).2
      let (others, t) ← takeAll? line rest t
      return ((found.map (q, ·)).toList ++ others, t)

def detours (incoming : List (Nat × Regex)) (loop : Option Regex)
    (outgoing : List (Nat × Regex)) : List Entry :=
  incoming.flatMap fun (i, before) => outgoing.map fun (j, after) =>
    ⟨i, j, .concat ([before] ++ (loop.map .star).toList ++ [after])⟩

def eliminate? (t : CellTable) (k : Nat) : Option CellTable := do
  let (loop, t) ← t.take? k k
  let (incoming, t) ← takeAll? (·, k) (List.range t.size) t
  let (outgoing, t) ← takeAll? (k, ·) (List.range t.size) t
  t.addAll? (detours incoming loop outgoing)

end CellTable

/-- What the table holds to begin with: the steps of the companions, and those of
the edges in the order in which they were added. -/
def firstEntries (d : Dfa) : List Entry :=
  ⟨d.size, 0, .epsilon⟩ ::
    (d.acceptingStates.map (⟨·, d.size + 1, .epsilon⟩) ++
      d.transitions.map fun e => ⟨e.source, e.target, .lit e.symbol⟩)

/-- The table after eliminating the states below `count` one after the other. -/
def cellTable? (d : Dfa) (count : Nat) : Option CellTable := do
  let first ← (CellTable.blank (d.size + 2)).addAll? d.firstEntries
  (List.range count).foldlM CellTable.eliminate? first

def tabulated? (d : Dfa) : Option (Option Regex) := do
  let t ← d.cellTable? d.size
  let (found, _) ← t.take? d.size (d.size + 1)
  return found.map Regex.simplify

end RegularLanguages.Dfa
