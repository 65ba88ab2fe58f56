import RegularLanguages.Regex.Basic

/-! # Reading a pattern

The pattern syntax is

    expr   = term ('|' term)*
    term   = factor*
    factor = atom ('*' | '+' | '?')*
    atom   = literal | '.' | '(' expr ')' | '\' any character

A term without factors stands for the empty word, so `""`, `"()"` and `"a|"`
are patterns.

The reader goes through the characters once, from left to right.  It keeps the
group it is in and the groups around that one, innermost first; of each group
it keeps the branches that are complete and the items of the current branch,
both newest first.  A postfix operator is applied to the newest item. -/
set_option autoImplicit false
namespace RegularLanguages.Regex

/-- Why a text is no pattern, and where: positions count characters. -/
inductive ParseError where
  | unexpected (character : Char) (position : Nat)
  | unmatchedClose (position : Nat)
  /-- A group that is not closed: what stands where `)` should, if anything. -/
  | missingClose (position : Nat) (found : Option Char)
  | incompleteEscape (position : Nat)
deriving DecidableEq

namespace ParseError

def position : ParseError → Nat
  | unexpected _ position => position
  | unmatchedClose position => position
  | missingClose position _ => position
  | incompleteEscape position => position

def message : ParseError → String
  | unexpected character position =>
      "Unexpected character '" ++ character.toString ++ "' at position " ++ position.repr
  | unmatchedClose position => "Unmatched ')' at position " ++ position.repr
  | missingClose position none => "Expected ')' at position " ++ position.repr ++ " but found EOF"
  | missingClose position (some character) =>
      "Expected ')' at position " ++ position.repr ++ " but found '" ++ character.toString ++ "'"
  | incompleteEscape position => "Incomplete escape sequence at position " ++ position.repr

end ParseError

structure Group where
  /-- The complete branches, newest first. -/
  branches : List Regex
  /-- The items of the current branch, newest first. -/
  items : List Regex

namespace Group

def empty : Group := ⟨[], []⟩

def push (g : Group) (item : Regex) : Group := { g with items := item :: g.items }

def nextBranch (g : Group) : Group := ⟨concat g.items.reverse :: g.branches, []⟩

def close (g : Group) : Regex := alternation g.nextBranch.branches.reverse

def repeatLast? (g : Group) (operator : Regex → Regex) : Option Group :=
  match g.items with
  | [] => none
  | item :: rest => some { g with items := operator item :: rest }

end Group

def postfixOperator? : Char → Option (Regex → Regex)
  | '*' => some star
  | '+' => some plus
  | '?' => some opt
  | _ => none

/-- Reads on from `position` inside `inner` and the groups around it. -/
def parseFrom (position : Nat) (inner : Group) (outer : List Group) :
    List Char → Except ParseError Regex
  | [] =>
      match outer with
      | [] => .ok inner.close
      | _ :: _ => .error (.missingClose position none)
  | '|' :: rest => parseFrom (position + 1) inner.nextBranch outer rest
  | '(' :: rest => parseFrom (position + 1) .empty (inner :: outer) rest
  | ')' :: rest =>
      match outer with
      | [] => .error (.unmatchedClose position)
      | around :: outer => parseFrom (position + 1) (around.push inner.close) outer rest
  | '.' :: rest => parseFrom (position + 1) (inner.push any) outer rest
  | '\\' :: [] => .error (.incompleteEscape position)
  | '\\' :: c :: rest => parseFrom (position + 2) (inner.push (lit c)) outer rest
  | c :: rest =>
      match postfixOperator? c with
      | none => parseFrom (position + 1) (inner.push (lit c)) outer rest
      | some operator =>
          match inner.repeatLast? operator with
          | none => .error (.unexpected c position)
          | some inner => parseFrom (position + 1) inner outer rest

def parse (pattern : String) : Except ParseError Regex :=
  parseFrom 0 .empty [] pattern.toList

end RegularLanguages.Regex
