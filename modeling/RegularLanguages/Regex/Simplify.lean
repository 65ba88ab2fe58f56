import RegularLanguages.Distinct
import RegularLanguages.Regex.Basic

/-! # Shorter expressions with the same meaning

`reduce` applies these rules once, from the leaves to the root:

- a sequence takes in the items of its sequences and drops the empty word;
  next to each other, `x x*` and `x* x` become `x+`, and `x* x*` becomes `x*`
- a choice takes in the branches of its choices and drops repeated ones; a
  branch for the empty word makes the rest optional, or is dropped where
  another branch matches the empty word already
- a repetition of a repetition is one repetition, and an optional part that
  matches the empty word anyway is that part

`simplify` goes on until nothing changes.  A round that changes anything
lowers `weight`, so as many rounds as the weight of the tree are enough. -/
set_option autoImplicit false
namespace RegularLanguages.Regex

def spliceItems : Regex → List Regex
  | cat items => items
  | epsilon => []
  | item => [item]

def spliceBranches : Regex → List Regex
  | alt branches => branches
  | branch => [branch]

/-- What two neighbours in a sequence become together, if they can be joined. -/
def joinItems? (before after : Regex) : Option Regex :=
  if after = star before then some (plus before)
  else if before = star after then some (plus after)
  else match before with
    | star _ => if before = after then some before else none
    | _ => none

/-- Adds an item to a sequence written newest first, joined with its
neighbour where that can be. -/
def addItem : List Regex → Regex → List Regex
  | [], item => [item]
  | last :: rest, item =>
      match joinItems? last item with
      | some joined => joined :: rest
      | none => item :: last :: rest

def joinSequence (items : List Regex) : Regex :=
  concat ((items.flatMap spliceItems).foldl addItem []).reverse

def joinChoice (branches : List Regex) : Regex :=
  let distinct := Distinct.ofList (branches.flatMap spliceBranches)
  if epsilon ∈ distinct then
    match distinct.filter (· ≠ epsilon) with
    | [] => epsilon
    | rest => if rest.any nullable then alternation rest else opt (alternation rest)
  else alternation distinct

def joinStar : Regex → Regex
  | epsilon => epsilon
  | star inner => star inner
  | plus inner => star inner
  | opt inner => star inner
  | inner => star inner

def joinPlus : Regex → Regex
  | epsilon => epsilon
  | star inner => star inner
  | plus inner => plus inner
  | opt inner => star inner
  | inner => plus inner

def joinOpt : Regex → Regex
  | star inner => star inner
  | plus inner => star inner
  | inner => if nullable inner then inner else opt inner

mutual
def reduce : Regex → Regex
  | epsilon => epsilon
  | any => any
  | lit c => lit c
  | cat items => joinSequence (reduceAll items)
  | alt branches => joinChoice (reduceAll branches)
  | star inner => joinStar (reduce inner)
  | plus inner => joinPlus (reduce inner)
  | opt inner => joinOpt (reduce inner)

def reduceAll : List Regex → List Regex
  | [] => []
  | r :: rest => reduce r :: reduceAll rest
end

/-- A count in which the empty word counts twice and a sequence or a choice three
times, so that every rule lowers it. -/
def weight (r : Regex) : Nat := measure 2 3 r

def settle : Nat → Regex → Regex
  | 0, r => r
  | rounds + 1, r =>
      let next := reduce r
      if next = r then r else settle rounds next

def simplify (r : Regex) : Regex := settle (weight r) r

end RegularLanguages.Regex
