import RegularLanguages.Regex.Parser

/-! # The first mistake in a pattern

Mistakes are found by going through the characters once and counting the groups
that are open.  A postfix operator needs something complete before it: a
literal, a `.`, an escaped character, a closed group or another postfix
operator. -/
set_option autoImplicit false
namespace RegularLanguages.Regex

/-- The first mistake from `position` on, inside `opened` groups.  `complete`
tells whether there is something for a postfix operator to apply to. -/
def scanFrom (position opened : Nat) (complete : Bool) : List Char → Option ParseError
  | [] => if opened = 0 then none else some (.missingClose position none)
  | '|' :: rest => scanFrom (position + 1) opened false rest
  | '(' :: rest => scanFrom (position + 1) (opened + 1) false rest
  | ')' :: rest =>
      match opened with
      | 0 => some (.unmatchedClose position)
      | around + 1 => scanFrom (position + 1) around true rest
  | '\\' :: [] => some (.incompleteEscape position)
  | '\\' :: _ :: rest => scanFrom (position + 2) opened true rest
  | c :: rest =>
      if c = '*' ∨ c = '+' ∨ c = '?' then
        if complete then scanFrom (position + 1) opened true rest
        else some (.unexpected c position)
      else scanFrom (position + 1) opened true rest

def firstMistake? (pattern : String) : Option ParseError := scanFrom 0 0 false pattern.toList

/-- Whether a mistake tells what stands at its place in a text.  A group that is
not closed is noticed at the end, where nothing stands. -/
def ParseError.PointsInto (text : List Char) : ParseError → Prop
  | unexpected c position => text[position]? = some c ∧ (c = '*' ∨ c = '+' ∨ c = '?')
  | unmatchedClose position => text[position]? = some ')'
  | missingClose position found => position = text.length ∧ found = none
  | incompleteEscape position => text[position]? = some '\\' ∧ position + 1 = text.length

end RegularLanguages.Regex
