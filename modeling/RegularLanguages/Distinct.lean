/-! # Lists without repetition

Elements in the order in which they first occur. -/
set_option autoImplicit false
namespace RegularLanguages.Distinct

variable {α : Type} [DecidableEq α]

def add (xs : List α) (x : α) : List α := if x ∈ xs then xs else xs ++ [x]

/-- The elements of a list, each where it first occurs. -/
def ofList (xs : List α) : List α := xs.foldl add []

def hasRepeats : List α → Bool
  | [] => false
  | x :: rest => decide (x ∈ rest) || hasRepeats rest

end RegularLanguages.Distinct
