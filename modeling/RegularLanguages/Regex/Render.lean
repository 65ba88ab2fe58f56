import RegularLanguages.Regex.Basic

/-! # The text of an expression

`text` writes a tree in the pattern syntax with the parentheses that its
operators need and no others.  An alternation binds weakest, then a
concatenation, then the postfix operators; an operand that binds weaker than
its place asks for is put in parentheses.  A node with a single part binds as
strongly as that part, and a node with none is written as the empty group. -/
set_option autoImplicit false
namespace RegularLanguages.Regex

def metacharacters : List Char := ['|', '(', ')', '*', '+', '?', '.', '\\']

mutual
/-- How strongly a tree binds: 0 for a choice, 1 for a sequence, 2 for a
repetition, 3 for an atom. -/
def strength : Regex → Nat
  | epsilon => 3
  | any => 3
  | lit _ => 3
  | cat items => strengthOf 1 items
  | alt branches => strengthOf 0 branches
  | star _ => 2
  | plus _ => 2
  | opt _ => 2

/-- The strength of a node that has `own` when it joins several parts. -/
def strengthOf (own : Nat) : List Regex → Nat
  | [] => 3
  | [part] => strength part
  | _ :: _ :: _ => own
end

def group (needed : Bool) (inside : List Char) : List Char :=
  if needed then '(' :: inside ++ [')'] else inside

def literalText (c : Char) : List Char := if c ∈ metacharacters then ['\\', c] else [c]

mutual
def text : Regex → List Char
  | epsilon => ['(', ')']
  | any => ['.']
  | lit c => literalText c
  | cat items => sequenceText items
  | alt branches => choiceText branches
  | star inner => group (strength inner < 2) (text inner) ++ ['*']
  | plus inner => group (strength inner < 2) (text inner) ++ ['+']
  | opt inner => group (strength inner < 2) (text inner) ++ ['?']

def sequenceText : List Regex → List Char
  | [] => ['(', ')']
  | [item] => group (strength item < 1) (text item)
  | item :: next :: rest => group (strength item < 1) (text item) ++ sequenceText (next :: rest)

def choiceText : List Regex → List Char
  | [] => ['(', ')']
  | [branch] => text branch
  | branch :: next :: rest => text branch ++ '|' :: choiceText (next :: rest)
end

def render (r : Regex) : String := String.ofList (text r)

instance : ToString Regex := ⟨render⟩

end RegularLanguages.Regex
