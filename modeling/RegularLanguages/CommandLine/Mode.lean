import RegularLanguages.Text.Character

/-! # What to convert

The modes differ in what their input is: a pattern, or the path of a file with
a written automaton. -/
set_option autoImplicit false
namespace RegularLanguages

inductive Mode where
  | regex
  | table
  | toRegex
  | minimize
  | lambdaFree
  | nfa
  | nfaToRegex
deriving DecidableEq

namespace Mode

def all : List Mode := [regex, table, toRegex, minimize, lambdaFree, nfa, nfaToRegex]

def name : Mode → String
  | regex => "regex"
  | table => "table"
  | toRegex => "to-regex"
  | minimize => "minimize"
  | lambdaFree => "lambda-free"
  | nfa => "nfa"
  | nfaToRegex => "nfa-to-regex"

def ofText? (text : String) : Option Mode := all.find? (·.name == Text.lower text)

def invalidMessage (text : String) : String := "Invalid mode: " ++ text

def readsFile : Mode → Bool
  | regex => false
  | lambdaFree => false
  | _ => true

end Mode

end RegularLanguages
