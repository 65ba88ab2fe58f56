import RegularLanguages.Dfa.Document
import RegularLanguages.Nfa.Document
import RegularLanguages.Service.Error

/-! # Requests and responses

A request may name strings to test on the resulting automaton: a single one or
a list, and where both are given the list counts. -/
set_option autoImplicit false
namespace RegularLanguages

inductive Samples where
  | none
  | one (string : String)
  | list (strings : List String)
deriving DecidableEq

namespace Samples

def ofFields : Option String → Option (List String) → Samples
  | _, some strings => list strings
  | some string, Option.none => one string
  | Option.none, Option.none => none

def strings? : Samples → Option (List String)
  | none => Option.none
  | one string => some [string]
  | list strings => some strings

end Samples

structure PatternRequest where
  pattern : String
  samples : Samples
deriving DecidableEq

structure TableRequest where
  table : Dfa.Table
  samples : Samples
deriving DecidableEq

structure SampleResult where
  string : String
  accepted : Bool
deriving DecidableEq

structure DfaResponse where
  pattern : Option String
  dfa : Document
  results : Option (List SampleResult)
deriving DecidableEq

/-- A result or the text of an error.  `success` tells which of the two it
is. -/
structure Envelope (α : Type) where
  success : Bool
  result : Option α
  error : Option String

def Envelope.ofResult {α : Type} : Except ServiceError α → Envelope α
  | .ok result => ⟨true, some result, none⟩
  | .error e => ⟨false, none, some e.message⟩

def Dfa.runSamples (d : Dfa) (samples : Samples) : Option (List SampleResult) :=
  samples.strings?.map fun strings => strings.map fun s => ⟨s, d.accepts s.toList⟩

end RegularLanguages
