import Mathlib.Data.List.Forall2
import Mathlib.Data.List.Shortlex
import RegularLanguages.Language.Compare
import RegularLanguages.OrderedSet

/-! # Words as tuples

The words of a length are the tuples from as many copies of the alphabet.  Any
function may list these tuples that goes by the positions of their elements
(`EnumeratesTuples`).  The empty word is the tuple from no lists; it is put in
front by hand, so nothing is asked of the function there. -/
set_option autoImplicit false
namespace RegularLanguages

variable {α : Type}

inductive TupleAt : List (List α) → List Nat → List α → Prop where
  | nil : TupleAt [] [] []
  | cons {xs : List α} {lists : List (List α)} {i : Nat} {positions : List Nat} {x : α}
      {tuple : List α} :
      xs[i]? = some x → TupleAt lists positions tuple →
        TupleAt (xs :: lists) (i :: positions) (x :: tuple)

/-- The function lists the tuples from the given lists, if there are any lists,
in the lexicographic order of the positions of their elements. -/
def EnumeratesTuples (product : List (List α) → List (List α)) : Prop :=
  ∀ lists, lists ≠ [] → ∃ positions : List (List Nat),
    OrderedSet.Increasing positions ∧
    (∀ p, p ∈ positions ↔ ∃ tuple, TupleAt lists p tuple) ∧
    List.Forall₂ (TupleAt lists) positions (product lists)

def tuples : List (List α) → List (List α)
  | [] => [[]]
  | xs :: lists => xs.flatMap fun x => (tuples lists).map (x :: ·)

/-- The empty word, and then the words of each length up to a bound as a function
lists them. -/
def wordsByTuples (product : List (List α) → List (List α)) (alphabet : List α)
    (maxLength : Nat) : List (List α) :=
  [] :: (List.range' 1 maxLength).flatMap fun length => product (List.replicate length alphabet)

/-- A word comes before another if it is shorter, or if it has the same length and
its character comes earlier in the alphabet where they first differ. -/
def Precedes [DecidableEq α] (alphabet : List α) : List α → List α → Prop :=
  List.Shortlex fun a b => alphabet.idxOf a < alphabet.idxOf b

end RegularLanguages
