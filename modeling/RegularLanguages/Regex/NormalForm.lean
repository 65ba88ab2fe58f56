import RegularLanguages.Regex.Basic

/-! # Shapes of expressions

An expression is flat when its text can be read back as the same tree: every
sequence and every choice has two parts or more, none of which is of its own
kind.  It is normal when moreover nothing in it can be written shorter by the
rules for the empty word, for repeated branches, for repetitions of repetitions
and for neighbours in a sequence.  The size of an expression is the number of its
nodes. -/
set_option autoImplicit false
namespace RegularLanguages.Regex

def parts : Regex → List Regex
  | epsilon => []
  | any => []
  | lit _ => []
  | cat items => items
  | alt branches => branches
  | star inner => [inner]
  | plus inner => [inner]
  | opt inner => [inner]

@[simp]
theorem parts_apply (operator : Repetition) (r : Regex) : (operator.apply r).parts = [r] := by
  cases operator <;> rfl

/-- A part of a tree at any depth, the tree itself included. -/
inductive Subtree : Regex → Regex → Prop where
  | self (r : Regex) : Subtree r r
  | inside {s part r : Regex} : part ∈ r.parts → Subtree s part → Subtree s r

def isCat : Regex → Bool
  | cat _ => true
  | _ => false

def isAlt : Regex → Bool
  | alt _ => true
  | _ => false

def isRepetition : Regex → Bool
  | star _ => true
  | plus _ => true
  | opt _ => true
  | _ => false

def isPlus : Regex → Bool
  | plus _ => true
  | _ => false

def FlatNode : Regex → Prop
  | cat items => 2 ≤ items.length ∧ ∀ item ∈ items, item.isCat = false
  | alt branches => 2 ≤ branches.length ∧ ∀ branch ∈ branches, branch.isAlt = false
  | _ => True

def IsFlat (r : Regex) : Prop := ∀ s, Subtree s r → FlatNode s

/-- Neighbours in a sequence that stand for one repetition. -/
def Mergeable (before after : Regex) : Prop :=
  after = star before ∨ before = star after ∨ ∃ inner, before = star inner ∧ after = star inner

def NormalNode : Regex → Prop
  | cat items => ∀ before after, [before, after] <:+: items → ¬Mergeable before after
  | alt branches => branches.Nodup
  | star inner => inner.isRepetition = false
  | plus inner => inner.isRepetition = false
  | opt inner => inner.nullable = false ∧ inner.isPlus = false
  | _ => True

/-- The empty word alone, or a tree without it in which every node is flat and
normal. -/
def IsNormal (r : Regex) : Prop :=
  r = epsilon ∨ ∀ s, Subtree s r → s ≠ epsilon ∧ FlatNode s ∧ NormalNode s

def size (r : Regex) : Nat := measure 1 1 r

/-- What holds of every subtree holds of the tree and of the subtrees of its
parts. -/
theorem forall_subtree_iff {P : Regex → Prop} {r : Regex} :
    (∀ s, Subtree s r → P s) ↔ P r ∧ ∀ part ∈ r.parts, ∀ s, Subtree s part → P s := by
  constructor
  · exact fun all => ⟨all r (.self r), fun _ mem s sub => all s (.inside mem sub)⟩
  · rintro ⟨node, inner⟩ s sub
    cases sub with
    | self => exact node
    | inside mem below => exact inner _ mem s below

end RegularLanguages.Regex
