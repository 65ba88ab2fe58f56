import Mathlib.Computability.Language
import RegularLanguages.Nfa.Label
import RegularLanguages.Regex.Basic

/-! # Occurrences of characters in an expression

The characters and the `.`s of an expression are numbered from left to right.
`occurrenceLanguage` is the language of the expression when every occurrence is
a letter of its own. -/
set_option autoImplicit false
namespace RegularLanguages.Regex

mutual
def occurrences : Regex → List Label
  | epsilon => []
  | any => [.any]
  | lit c => [.symbol c]
  | cat items => occurrencesOf items
  | alt branches => occurrencesOf branches
  | star inner => occurrences inner
  | plus inner => occurrences inner
  | opt inner => occurrences inner

def occurrencesOf : List Regex → List Label
  | [] => []
  | r :: rest => occurrences r ++ occurrencesOf rest
end

mutual
/-- The words over the occurrences, numbered from `base` up. -/
def occurrenceLanguage (base : Nat) : Regex → Language Nat
  | epsilon => 1
  | any => {[base]}
  | lit _ => {[base]}
  | cat items => occurrenceSequence base items
  | alt branches => if branches.isEmpty then 1 else occurrenceChoice base branches
  | star inner => KStar.kstar (occurrenceLanguage base inner)
  | plus inner => occurrenceLanguage base inner * KStar.kstar (occurrenceLanguage base inner)
  | opt inner => 1 + occurrenceLanguage base inner

def occurrenceSequence (base : Nat) : List Regex → Language Nat
  | [] => 1
  | item :: rest =>
      occurrenceLanguage base item * occurrenceSequence (base + item.occurrences.length) rest

def occurrenceChoice (base : Nat) : List Regex → Language Nat
  | [] => 0
  | branch :: rest =>
      occurrenceLanguage base branch + occurrenceChoice (base + branch.occurrences.length) rest
end

end RegularLanguages.Regex
