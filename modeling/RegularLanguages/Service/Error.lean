import RegularLanguages.Dfa.Basic
import RegularLanguages.Nfa.Subset
import RegularLanguages.Regex.Parser
import RegularLanguages.TableError
import RegularLanguages.Text.Quoted

/-! # Why a conversion fails -/
set_option autoImplicit false
namespace RegularLanguages

def Dfa.Conflict.message (c : Dfa.Conflict) : String :=
  let arrow := fun target => c.source ++ " -" ++ Text.quotedChar c.symbol ++ "-> " ++ target
  "Transition conflict, adding the new transition causes this automaton to no longer be a DFA. " ++
    "Existing: " ++ arrow c.existing ++ ". New: " ++ arrow c.wanted

inductive ServiceError where
  | emptyPattern
  | patternTooLong (length limit : Nat)
  | parse (cause : Regex.ParseError)
  | table (cause : TableError)
  | stateLimit (cause : StateLimitExceeded)
  /-- No word is accepted, so no expression describes the automaton. -/
  | emptyLanguage
  | conflict (cause : Dfa.Conflict)
deriving DecidableEq

def ServiceError.message : ServiceError → String
  | emptyPattern => "The regular expression must not be empty"
  | patternTooLong length limit =>
      "Pattern of length " ++ length.repr ++ " exceeds the limit of " ++ limit.repr ++ " characters"
  | parse cause => cause.message
  | table cause => cause.message
  | stateLimit cause => cause.message
  | emptyLanguage =>
      "The automaton accepts the empty language, no regular expression can be derived"
  | conflict cause => cause.message

end RegularLanguages
