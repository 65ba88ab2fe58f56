import RegularLanguages.Regex.Render

/-! # Derivations in the pattern grammar

A derivation says how a text comes about by the rules

    expr   = term ('|' term)*
    term   = factor*
    factor = atom ('*' | '+' | '?')*
    atom   = literal | '.' | '(' expr ')' | '\' any character

`chars` gives the text and `tree` the expression that it stands for.  Operators
apply to all that comes before them in their factor, a term without factors
stands for the empty word, and a term of one factor and an expression of one
term stand for that part itself. -/
set_option autoImplicit false
namespace RegularLanguages.Regex

def Repetition.char : Repetition → Char
  | star => '*'
  | plus => '+'
  | opt => '?'

theorem char_mem_metacharacters (operator : Repetition) : operator.char ∈ metacharacters := by
  cases operator <;> decide

theorem strength_apply (operator : Repetition) (r : Regex) : strength (operator.apply r) = 2 := by
  cases operator <;> rfl

theorem text_apply (operator : Repetition) (r : Regex) :
    text (operator.apply r) = group (strength r < 2) (text r) ++ [operator.char] := by
  cases operator <;> rfl

mutual
inductive ExprDerivation where
  | single (term : TermDerivation)
  | choice (term : TermDerivation) (others : ExprDerivation)

inductive TermDerivation where
  | empty
  | cons (factor : FactorDerivation) (rest : TermDerivation)

inductive FactorDerivation where
  | atom (atom : AtomDerivation)
  | repeated (factor : FactorDerivation) (operator : Repetition)

inductive AtomDerivation where
  | literal (c : Char) (plain : c ∉ metacharacters)
  | any
  | group (inside : ExprDerivation)
  | escaped (c : Char)
end

mutual
def ExprDerivation.chars : ExprDerivation → List Char
  | .single term => term.chars
  | .choice term others => term.chars ++ '|' :: others.chars

def TermDerivation.chars : TermDerivation → List Char
  | .empty => []
  | .cons factor rest => factor.chars ++ rest.chars

def FactorDerivation.chars : FactorDerivation → List Char
  | .atom a => a.chars
  | .repeated factor operator => factor.chars ++ [operator.char]

def AtomDerivation.chars : AtomDerivation → List Char
  | .literal c _ => [c]
  | .any => ['.']
  | .group inside => '(' :: inside.chars ++ [')']
  | .escaped c => ['\\', c]
end

mutual
def ExprDerivation.branches : ExprDerivation → List Regex
  | .single term => [concat term.items]
  | .choice term others => concat term.items :: others.branches

def TermDerivation.items : TermDerivation → List Regex
  | .empty => []
  | .cons factor rest => factor.tree :: rest.items

def FactorDerivation.tree : FactorDerivation → Regex
  | .atom a => a.tree
  | .repeated factor operator => operator.apply factor.tree

def AtomDerivation.tree : AtomDerivation → Regex
  | .literal c _ => lit c
  | .any => any
  | .group inside => alternation inside.branches
  | .escaped c => lit c
end

namespace ExprDerivation

def tree (d : ExprDerivation) : Regex := alternation d.branches

end ExprDerivation

def Derives (pattern : String) (r : Regex) : Prop :=
  ∃ d : ExprDerivation, d.chars = pattern.toList ∧ d.tree = r

end RegularLanguages.Regex
