import RegularLanguages.Dfa.Basic
import RegularLanguages.Distinct
import RegularLanguages.Text.Quoted

/-! # Checks on deterministic automata

Whether given strings are accepted or rejected as expected, and whether every
state has at most one edge for a character, all of them from the alphabet. -/
set_option autoImplicit false
namespace RegularLanguages.Dfa

inductive Mistake where
  | shouldAccept (string : String)
  | shouldReject (string : String)
deriving DecidableEq

def Mistake.message : Mistake → String
  | shouldAccept string => "expected " ++ Text.quoted string ++ " to be accepted"
  | shouldReject string => "expected " ++ Text.quoted string ++ " to be rejected"

def mistake? (d : Dfa) (accepted rejected : List String) : Option Mistake :=
  match accepted.find? fun s => !d.accepts s.toList with
  | some s => some (.shouldAccept s)
  | none => (rejected.find? fun s => d.accepts s.toList).map .shouldReject

inductive Defect where
  /-- A state with several edges for one of its characters, newest edge first. -/
  | ambiguous (state : String) (symbols : List Char)
  | foreignSymbol (state : String)
deriving DecidableEq

def Defect.message : Defect → String
  | ambiguous state symbols =>
      "state " ++ state ++ " has several transitions on one of " ++
        Text.bracketed (symbols.map Text.quotedChar)
  | foreignSymbol state => "state " ++ state ++ " uses a symbol outside the alphabet"

def defectAt? (d : Dfa) (q : Nat) : Option Defect :=
  let symbols := (d.edges.filter (·.source == q)).map (·.symbol)
  if Distinct.hasRepeats symbols then some (.ambiguous (d.idOf q) symbols)
  else if symbols.all d.alphabet.contains then none
  else some (.foreignSymbol (d.idOf q))

def defect? (d : Dfa) : Option Defect := (List.range d.size).findSome? d.defectAt?

end RegularLanguages.Dfa
