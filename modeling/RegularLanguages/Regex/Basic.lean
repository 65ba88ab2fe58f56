/-! # Regular expressions

The syntax tree of an expression over characters.  A concatenation or an
alternation may hold any number of parts, also none or one; `concat` and
`alternation` build the trees that the pattern syntax can write, in which such
a node holds at least two.  There is no expression for the empty language.

`nullable` decides whether the empty word matches.  An alternation without
branches counts as not nullable here. -/
set_option autoImplicit false
namespace RegularLanguages

inductive Regex where
  | epsilon
  | any
  | lit (c : Char)
  | cat (items : List Regex)
  | alt (branches : List Regex)
  | star (inner : Regex)
  | plus (inner : Regex)
  | opt (inner : Regex)
deriving Inhabited

namespace Regex

/-- A sequence of parts, in which no part stands for the empty word and a
single part for itself. -/
def concat : List Regex → Regex
  | [] => epsilon
  | [item] => item
  | items => cat items

def alternation : List Regex → Regex
  | [] => epsilon
  | [branch] => branch
  | branches => alt branches

mutual
def nullable : Regex → Bool
  | epsilon => true
  | any => false
  | lit _ => false
  | cat items => allNullable items
  | alt branches => someNullable branches
  | star _ => true
  | plus inner => nullable inner
  | opt _ => true

def allNullable : List Regex → Bool
  | [] => true
  | item :: rest => nullable item && allNullable rest

def someNullable : List Regex → Bool
  | [] => false
  | branch :: rest => nullable branch || someNullable rest
end

/-! ## Counting nodes -/

mutual
/-- A count of nodes in which the empty word counts `empty`, a sequence or a
choice `node` and every other node once. -/
def measure (empty node : Nat) : Regex → Nat
  | epsilon => empty
  | any => 1
  | lit _ => 1
  | cat items => node + measureAll empty node items
  | alt branches => node + measureAll empty node branches
  | star inner => 1 + measure empty node inner
  | plus inner => 1 + measure empty node inner
  | opt inner => 1 + measure empty node inner

def measureAll (empty node : Nat) : List Regex → Nat
  | [] => 0
  | r :: rest => measure empty node r + measureAll empty node rest
end

theorem measure_pos {empty node : Nat} (one : 1 ≤ empty) (within : empty ≤ node) (r : Regex) :
    0 < measure empty node r := by
  cases r with
  | epsilon => exact one
  | any => exact Nat.one_pos
  | lit c => exact Nat.one_pos
  | _ => rw [measure]; omega

/-! ## Repetitions -/

inductive Repetition where
  | star
  | plus
  | opt
deriving DecidableEq

def Repetition.apply : Repetition → Regex → Regex
  | star => Regex.star
  | plus => Regex.plus
  | opt => Regex.opt

theorem measure_apply (empty node : Nat) (operator : Repetition) (r : Regex) :
    measure empty node (operator.apply r) = 1 + measure empty node r := by
  cases operator <;> rfl

/-! ## Equality of trees -/

mutual
def same : Regex → Regex → Bool
  | epsilon, epsilon => true
  | any, any => true
  | lit c, lit d => c == d
  | cat items, cat others => sameAll items others
  | alt branches, alt others => sameAll branches others
  | star inner, star other => same inner other
  | plus inner, plus other => same inner other
  | opt inner, opt other => same inner other
  | _, _ => false

def sameAll : List Regex → List Regex → Bool
  | [], [] => true
  | r :: rest, s :: others => same r s && sameAll rest others
  | _, _ => false
end

mutual
theorem same_iff : ∀ r s : Regex, same r s = true ↔ r = s := by
  intro r s
  cases r <;> cases s <;> simp [same, same_iff, sameAll_iff]

theorem sameAll_iff : ∀ rs ss : List Regex, sameAll rs ss = true ↔ rs = ss := by
  intro rs ss
  cases rs <;> cases ss <;> simp [sameAll, same_iff, sameAll_iff]
end

instance : DecidableEq Regex := fun r s => decidable_of_iff (same r s = true) (same_iff r s)

/-! ## Induction over trees -/

/-- To prove a fact of all trees, prove it of a concatenation and of an
alternation from its parts. -/
@[induction_eliminator]
theorem induct {motive : Regex → Prop}
    (epsilon : motive epsilon) (any : motive any) (lit : ∀ c, motive (lit c))
    (cat : ∀ items, (∀ item ∈ items, motive item) → motive (cat items))
    (alt : ∀ branches, (∀ branch ∈ branches, motive branch) → motive (alt branches))
    (star : ∀ inner, motive inner → motive (star inner))
    (plus : ∀ inner, motive inner → motive (plus inner))
    (opt : ∀ inner, motive inner → motive (opt inner)) : ∀ r, motive r := fun r =>
  Regex.rec (motive_1 := motive) (motive_2 := fun rs => ∀ s ∈ rs, motive s)
    epsilon any lit cat alt star plus opt
    (fun _ h => nomatch h)
    (fun _ _ head tail s hs => by
      rcases List.mem_cons.1 hs with h | h
      · exact h ▸ head
      · exact tail s h)
    r

/-- Induction with one case for the three repetitions. -/
theorem induct_apply {motive : Regex → Prop}
    (epsilon : motive epsilon) (any : motive any) (lit : ∀ c, motive (lit c))
    (cat : ∀ items, (∀ item ∈ items, motive item) → motive (cat items))
    (alt : ∀ branches, (∀ branch ∈ branches, motive branch) → motive (alt branches))
    (repeated : ∀ (operator : Repetition) (inner : Regex), motive inner →
      motive (operator.apply inner)) : ∀ r, motive r := fun r =>
  induct epsilon any lit cat alt (repeated .star) (repeated .plus) (repeated .opt) r

end Regex

end RegularLanguages
