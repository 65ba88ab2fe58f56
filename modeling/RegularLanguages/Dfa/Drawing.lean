import RegularLanguages.Dfa.Describe
import RegularLanguages.Dfa.Document
import RegularLanguages.Text.Unquoted

/-! # Reading drawings

A drawing is read line by line.  What stands outside the quotes of a line says
which statement it is, and the quoted texts name what the statement is about. -/
set_option autoImplicit false
namespace RegularLanguages.Dfa

structure Sketch where
  /-- What stands outside the quotes, with the quotes themselves. -/
  shape : List Char
  /-- What stands between the quotes, one text for each pair. -/
  texts : List String
deriving DecidableEq

def readLine : List Char → Option Sketch
  | [] => some ⟨[], []⟩
  | c :: rest =>
      if c = '"' then
        match _ : Text.readQuoted (c :: rest) with
        | some (text, after) =>
            (readLine after).map fun s => ⟨'"' :: '"' :: s.shape, text :: s.texts⟩
        | none => none
      else (readLine rest).map fun s => ⟨c :: s.shape, s.texts⟩
termination_by cs => cs.length
decreasing_by
  · exact Text.length_readQuoted_lt ‹_›
  · simp

inductive Statement where
  | accepting (ids : List String)
  | state (id : String)
  | start (id : String)
  | edge (row : Row)
  | other (line : Sketch)
deriving DecidableEq

namespace Statement

/-! What a statement tells, if it is about this. -/

def states : Statement → List String
  | .state id => [id]
  | _ => []

def starts : Statement → List String
  | .start id => [id]
  | _ => []

def acceptingIds : Statement → List String
  | .accepting ids => ids
  | _ => []

def rows : Statement → List Row
  | .edge row => [row]
  | _ => []

end Statement

def acceptingShape (count : Nat) : List Char :=
  "node [shape = doublecircle]; ".toList ++
    [' '].intercalate (List.replicate count ['"', '"']) ++ [';']

def Statement.ofSketch (line : Sketch) : Statement :=
  if line.shape = acceptingShape line.texts.length then .accepting line.texts
  else
    match String.ofList line.shape, line.texts with
    | "\"\";", [id] => .state id
    | "START -> \"\";", [id] => .start id
    | "\"\" -> \"\" [ label=\"\" ];", [source, target, symbol] => .edge ⟨source, symbol, target⟩
    | _, _ => .other line

def readStatement (line : List Char) : Option Statement := (readLine line).map Statement.ofSketch

/-- The lines of a text, of which every one is ended. -/
def linesOf (text : String) : List (List Char) := (text.toList.splitOn '\n').dropLast

def readDrawing (text : String) : Option (List Statement) := (linesOf text).mapM readStatement

/-! ## What a drawing says -/

def opening : List Sketch :=
  let font := "Helvetica,Arial,sans-serif"
  [⟨"digraph finite_state_machine \x7b".toList, []⟩, ⟨"fontname=\"\"".toList, [font]⟩,
    ⟨"node [fontname=\"\"]".toList, [font]⟩, ⟨"edge [fontname=\"\"]".toList, [font]⟩,
    ⟨"rankdir=LR;".toList, []⟩, ⟨"node [shape=point,label=\"\"]START".toList, [""]⟩]

def acceptingStatement (d : Dfa) : List Statement :=
  match d.acceptingStates with
  | [] => []
  | states => [.accepting (states.map d.idOf)]

def statements (d : Dfa) : List Statement :=
  opening.map .other ++ d.acceptingStatement ++ [.other ⟨"node [shape = circle];".toList, []⟩] ++
    (List.range d.size).map (fun q => .state (d.idOf q)) ++ [.start (d.idOf 0)] ++
    (d.transitions.mergeSort Edge.le).map (fun e => .edge (d.row e)) ++
    [.other ⟨['\x7d'], []⟩]

end RegularLanguages.Dfa
