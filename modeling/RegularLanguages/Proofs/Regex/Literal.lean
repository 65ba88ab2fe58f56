import RegularLanguages.OrderedSet
import RegularLanguages.Regex.NormalForm
import RegularLanguages.Regex.Occurrence

/-! # The characters that an expression names

`literals r` is the set of the characters that stand as literals in `r`, in
order; a `.` names none.  A character belongs to it exactly if the tree has it
as a leaf (`mem_literals_iff_subtree`). -/
set_option autoImplicit false
namespace RegularLanguages.Regex

def literals (r : Regex) : List Char := OrderedSet.ofList (r.occurrences.filterMap Label.symbol?)

/-- The characters of the words that are looked at: those that an expression
names, or the fallback if it names none. -/
def alphabet (r : Regex) (fallback : List Char) : List Char :=
  if r.literals = [] then OrderedSet.ofList fallback else r.literals

theorem mem_occurrencesOf (label : Label) (items : List Regex) :
    label ∈ occurrencesOf items ↔ ∃ r ∈ items, label ∈ r.occurrences := by
  induction items with
  | nil => simp [occurrencesOf]
  | cons r rest ih => simp [occurrencesOf, ih]

theorem occurrences_apply (operator : Repetition) (r : Regex) :
    (operator.apply r).occurrences = r.occurrences := by
  cases operator <;> rfl

theorem epsilon_not_mem_occurrences (r : Regex) : Label.epsilon ∉ r.occurrences := by
  induction r using induct_apply with
  | epsilon => exact List.not_mem_nil
  | any => simp [occurrences]
  | lit c => simp [occurrences]
  | cat items ih =>
      rw [occurrences, mem_occurrencesOf]
      rintro ⟨item, mem, inside⟩
      exact ih item mem inside
  | alt branches ih =>
      rw [occurrences, mem_occurrencesOf]
      rintro ⟨branch, mem, inside⟩
      exact ih branch mem inside
  | repeated operator inner ih => exact occurrences_apply operator inner ▸ ih

theorem symbol?_eq_some {label : Label} {c : Char} :
    label.symbol? = some c ↔ label = .symbol c := by
  cases label <;> simp [Label.symbol?]

theorem mem_literals {r : Regex} {c : Char} : c ∈ r.literals ↔ .symbol c ∈ r.occurrences := by
  simp [literals, symbol?_eq_some]

def leaf : Label → Regex
  | .symbol c => lit c
  | .any => any
  | .epsilon => epsilon

theorem subtree_iff {r s : Regex} : Subtree s r ↔ r = s ∨ ∃ part ∈ r.parts, Subtree s part := by
  constructor
  · intro sub
    cases sub with
    | self => exact .inl rfl
    | inside mem below => exact .inr ⟨_, mem, below⟩
  · rintro (rfl | ⟨part, mem, below⟩)
    · exact .self r
    · exact .inside mem below

theorem mem_occurrences_iff {r : Regex} {label : Label} (reading : label ≠ .epsilon) :
    label ∈ r.occurrences ↔ r = leaf label ∨ ∃ part ∈ r.parts, label ∈ part.occurrences := by
  cases r with
  | cat items => cases label <;> simp [leaf, occurrences, parts, mem_occurrencesOf]
  | alt branches => cases label <;> simp [leaf, occurrences, parts, mem_occurrencesOf]
  | _ => cases label <;> simp [leaf, occurrences, parts, eq_comm] at reading ⊢

/-- The occurrences are the leaves of the tree but for the empty words. -/
theorem mem_occurrences_iff_subtree {r : Regex} {label : Label} (reading : label ≠ .epsilon) :
    label ∈ r.occurrences ↔ Subtree (leaf label) r := by
  have step : ∀ r : Regex,
      (∀ part ∈ r.parts, (label ∈ part.occurrences ↔ Subtree (leaf label) part)) →
        (label ∈ r.occurrences ↔ Subtree (leaf label) r) := by
    intro r each
    rw [mem_occurrences_iff reading, subtree_iff]
    exact or_congr_right (exists_congr fun part => and_congr_right fun mem => each part mem)
  induction r using induct_apply with
  | cat items each => exact step _ each
  | alt branches each => exact step _ each
  | repeated operator inner ih =>
      refine step _ fun part mem => ?_
      rw [parts_apply, List.mem_singleton] at mem
      exact mem ▸ ih
  | _ => exact step _ fun part mem => absurd mem List.not_mem_nil

theorem mem_literals_iff_subtree {r : Regex} {c : Char} :
    c ∈ r.literals ↔ Subtree (lit c) r := by
  rw [mem_literals, mem_occurrences_iff_subtree (by simp)]
  rfl

theorem increasing_alphabet (r : Regex) (fallback : List Char) :
    OrderedSet.Increasing (r.alphabet fallback) := by
  rw [alphabet]
  split
  · exact OrderedSet.increasing_ofList _
  · exact OrderedSet.increasing_ofList _

theorem mem_alphabet {r : Regex} {fallback : List Char} {c : Char} :
    c ∈ r.alphabet fallback ↔
      Subtree (lit c) r ∨ ((∀ other, ¬ Subtree (lit other) r) ∧ c ∈ fallback) := by
  simp only [← mem_literals_iff_subtree]
  rw [alphabet, ← List.eq_nil_iff_forall_not_mem]
  by_cases empty : r.literals = []
  · rw [if_pos empty, OrderedSet.mem_ofList, empty]
    simp
  · rw [if_neg empty]
    simp [empty]

end RegularLanguages.Regex
