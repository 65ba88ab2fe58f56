import Mathlib.Computability.Language
import Mathlib.Data.Setoid.Basic
import Mathlib.SetTheory.Cardinal.Finite

/-! # Telling finitely many languages apart by short words

Take a finite family of languages in which the words that follow a first
character of a member form a member again.  Agreement on the words up to a length
parts the family into classes, and it becomes finer with the length.  Where one
more character makes no difference, no further one does (`agreement_settled`).
There is at least one class and there are no more than members, so agreement
settles below the number of members (`exists_settled`), and members that agree
on the words shorter than that number are equal (`eq_of_agree`). -/
set_option autoImplicit false
namespace RegularLanguages

variable {ι : Type} {family : ι → Language Char} {i j : ι} {k : Nat}

/-- The words that follow a first character of a member are those of a
member. -/
def ClosedUnderResiduals (family : ι → Language Char) : Prop :=
  ∀ i c, ∃ j, ∀ word, c :: word ∈ family i ↔ word ∈ family j

/-- Two members have the same words among those of at most `k` characters. -/
def agreement (family : ι → Language Char) (k : Nat) : Setoid ι where
  r i j := ∀ word : List Char, word.length ≤ k → (word ∈ family i ↔ word ∈ family j)
  iseqv :=
    { refl := fun _ _ _ => Iff.rfl
      symm := fun agree word short => (agree word short).symm
      trans := fun first second word short => (first word short).trans (second word short) }

theorem agreement_le (family : ι → Language Char) {k m : Nat} (le : k ≤ m) :
    agreement family m ≤ agreement family k :=
  fun _ _ agree word short => agree word (Nat.le_trans short le)

/-- What follows a first character is told apart by words that are one character
shorter. -/
theorem agreement_settled_succ (closed : ClosedUnderResiduals family)
    (settled : agreement family k ≤ agreement family (k + 1)) :
    agreement family (k + 1) ≤ agreement family (k + 2) := by
  intro i j agree word short
  cases word with
  | nil => exact agree [] (Nat.zero_le _)
  | cons c rest =>
      obtain ⟨i', onward⟩ := closed i c
      obtain ⟨j', onward'⟩ := closed j c
      have residuals : agreement family k i' j' := by
        intro word short
        rw [← onward, ← onward']
        exact agree (c :: word) (Nat.succ_le_succ short)
      rw [onward, onward']
      exact settled residuals rest (Nat.le_of_succ_le_succ short)

theorem agreement_settled (closed : ClosedUnderResiduals family)
    (settled : agreement family k ≤ agreement family (k + 1)) (m : Nat) :
    agreement family k ≤ agreement family (k + m) := by
  have step : ∀ m, agreement family (k + m) ≤ agreement family (k + m + 1) := by
    intro m
    induction m with
    | zero => exact settled
    | succ m ih => exact agreement_settled_succ closed ih
  induction m with
  | zero => exact le_rfl
  | succ m ih => exact ih.trans (step m)

/-! ## Counting classes -/

theorem card_quotient_lt [Finite ι] {fine coarse : Setoid ι} (finer : fine < coarse) :
    Nat.card (Quotient coarse) < Nat.card (Quotient fine) := by
  let project : Quotient fine → Quotient coarse := Setoid.map_of_le finer.le
  have surjective : Function.Surjective project := by
    intro target
    induction target using Quotient.inductionOn with
    | h i => exact ⟨Quotient.mk fine i, rfl⟩
  by_contra few
  have injective := (surjective.bijective_of_nat_card_le (Nat.le_of_not_lt few)).1
  apply finer.not_ge
  intro i j together
  have same : project (Quotient.mk fine i) = project (Quotient.mk fine j) :=
    Quotient.sound together
  exact Quotient.exact (injective same)

/-- As long as agreement does not settle, every further character adds a class. -/
theorem exists_settled [Finite ι] [Nonempty ι] (family : ι → Language Char) :
    ∃ k < Nat.card ι, agreement family k ≤ agreement family (k + 1) := by
  by_contra unsettled
  -- Then agreement on the words up to a length has more classes than that length.
  have many : ∀ k ≤ Nat.card ι, k < Nat.card (Quotient (agreement family k)) := by
    intro k le
    induction k with
    | zero =>
        have nonempty : Nonempty (Quotient (agreement family 0)) :=
          (inferInstance : Nonempty ι).map (Quotient.mk _)
        exact Nat.card_pos
    | succ k ih =>
        have grows : agreement family (k + 1) < agreement family k :=
          lt_of_le_not_ge (agreement_le family (Nat.le_succ k))
            fun settled => unsettled ⟨k, le, settled⟩
        have more := card_quotient_lt grows
        have before := ih (Nat.le_of_succ_le le)
        omega
  have tooMany := many (Nat.card ι) le_rfl
  have most : Nat.card (Quotient (agreement family (Nat.card ι))) ≤ Nat.card ι :=
    Nat.card_le_card_of_surjective _ Quotient.mk_surjective
  omega

/-- Members that have the same words among those shorter than the number of
members are equal. -/
theorem eq_of_agree [Finite ι] (closed : ClosedUnderResiduals family)
    (agree : ∀ word : List Char, word.length < Nat.card ι → (word ∈ family i ↔ word ∈ family j)) :
    family i = family j := by
  have : Nonempty ι := ⟨i⟩
  obtain ⟨k, lt, settled⟩ := exists_settled family
  have upToK : agreement family k i j := fun word short => agree word (by omega)
  ext word
  exact agreement_settled closed settled word.length upToK word (Nat.le_add_left _ k)

end RegularLanguages
