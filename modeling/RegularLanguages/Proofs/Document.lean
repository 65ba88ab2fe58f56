import Mathlib.Data.List.Nodup
import Mathlib.Data.List.Sort
import Mathlib.Data.Prod.Lex
import Mathlib.Data.String.Basic
import RegularLanguages.Document

/-! # Sorted lists in documents

Names and transitions are sorted by linear orders, so a sorted list depends only
on what is in it. -/
set_option autoImplicit false
namespace RegularLanguages

section Sorting

variable {α β : Type} [LinearOrder β] {le : α → α → Bool} {key : α → β} {xs ys : List α}

/-- Lists with the same elements are sorted alike if the order is that of a key
which tells the elements apart. -/
theorem mergeSort_eq_of_perm (injective : Function.Injective key)
    (le_iff : ∀ a b, le a b = true ↔ key a ≤ key b) (perm : xs.Perm ys) :
    xs.mergeSort le = ys.mergeSort le := by
  have trans : ∀ a b c, le a b = true → le b c = true → le a c = true := by
    intro a b c
    simp only [le_iff]
    exact le_trans
  have total : ∀ a b, (le a b || le b a) = true := by
    intro a b
    simp only [Bool.or_eq_true, le_iff]
    exact le_total _ _
  apply List.Perm.eq_of_pairwise
  · intro a b _ _ below above
    exact injective (le_antisymm ((le_iff a b).1 below) ((le_iff b a).1 above))
  · exact List.pairwise_mergeSort trans total xs
  · exact List.pairwise_mergeSort trans total ys
  · exact ((xs.mergeSort_perm le).trans perm).trans (ys.mergeSort_perm le).symm

theorem perm_of_mergeSort_eq {le : α → α → Bool} (same : xs.mergeSort le = ys.mergeSort le) :
    xs.Perm ys := by
  have sorted := ys.mergeSort_perm le
  rw [← same] at sorted
  exact (xs.mergeSort_perm le).symm.trans sorted

theorem mergeSort_names_eq {names others : List String} (nodup : names.Nodup)
    (nodup' : others.Nodup) (same : ∀ name, name ∈ names ↔ name ∈ others) :
    names.mergeSort (· ≤ ·) = others.mergeSort (· ≤ ·) :=
  mergeSort_eq_of_perm Function.injective_id (by simp)
    ((List.perm_ext_iff_of_nodup nodup nodup').2 same)

end Sorting

namespace Row

def key (row : Row) : String ×ₗ String ×ₗ String :=
  toLex (row.source, toLex (row.symbol, row.target))

theorem key_injective : Function.Injective key := by
  rintro ⟨_, _, _⟩ ⟨_, _, _⟩ same
  simpa [key] using same

theorem le_iff (a b : Row) : le a b = true ↔ a.key ≤ b.key := by
  simp [le, key, Prod.Lex.le_iff]

theorem mergeSort_eq {rows others : List Row} (nodup : rows.Nodup) (nodup' : others.Nodup)
    (same : ∀ row, row ∈ rows ↔ row ∈ others) : rows.mergeSort le = others.mergeSort le :=
  mergeSort_eq_of_perm key_injective le_iff ((List.perm_ext_iff_of_nodup nodup nodup').2 same)

end Row

end RegularLanguages
