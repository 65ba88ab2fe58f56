import Mathlib.Data.List.Basic
import Mathlib.Data.List.Nodup
import RegularLanguages.Distinct

/-! # Members of lists without repetition

`ofList` keeps the members of a list, each where it first occurs
(`firstOccurrences_ofList`), so an element has one position. -/
set_option autoImplicit false
namespace RegularLanguages.Distinct

variable {α : Type} [DecidableEq α] {xs ys : List α} {x y : α}

theorem add_of_mem (mem : x ∈ xs) : add xs x = xs := if_pos mem

theorem add_of_notMem (new : x ∉ xs) : add xs x = xs ++ [x] := if_neg new

theorem prefix_add (xs : List α) (x : α) : xs <+: add xs x := by
  by_cases mem : x ∈ xs
  · exact ⟨[], (List.append_nil xs).trans (add_of_mem mem).symm⟩
  · exact ⟨[x], (add_of_notMem mem).symm⟩

theorem mem_add : y ∈ add xs x ↔ y ∈ xs ∨ y = x := by
  rw [add]
  split
  next mem =>
    rw [or_iff_left_of_imp]
    exact fun same => same ▸ mem
  next => rw [List.mem_append, List.mem_singleton]

theorem nodup_add (nodup : xs.Nodup) (x : α) : (add xs x).Nodup := by
  rw [add]
  split
  next => exact nodup
  next new => exact List.concat_eq_append ▸ nodup.concat new

theorem length_le_add (xs : List α) (x : α) : xs.length ≤ (add xs x).length :=
  (prefix_add xs x).length_le

theorem mem_foldl_add : y ∈ ys.foldl add xs ↔ y ∈ xs ∨ y ∈ ys := by
  induction ys generalizing xs with
  | nil => simp
  | cons x rest ih => rw [List.foldl_cons, ih, mem_add, List.mem_cons, or_assoc]

theorem head?_foldl_add (first : α) (ys xs : List α) :
    (ys.foldl add (first :: xs)).head? = some first := by
  induction ys generalizing xs with
  | nil => rfl
  | cons y rest ih =>
      rw [List.foldl_cons, add]
      split
      · exact ih xs
      · exact ih (xs ++ [y])

theorem ofList_cons (x : α) (ys : List α) : ofList (x :: ys) = ys.foldl add [x] := by
  have first : add [] x = [x] := add_of_notMem List.not_mem_nil
  rw [ofList, List.foldl_cons, first]

theorem mem_ofList : x ∈ ofList ys ↔ x ∈ ys := by
  rw [ofList, mem_foldl_add, or_iff_right List.not_mem_nil]

theorem mem_ofList_cons (listed : x ∈ ys) : y ∈ ofList (x :: ys) ↔ y ∈ ys := by
  rw [mem_ofList, List.mem_cons]
  apply or_iff_right_of_imp
  rintro rfl
  exact listed

theorem nodup_foldl_add (nodup : xs.Nodup) (ys : List α) : (ys.foldl add xs).Nodup := by
  induction ys generalizing xs with
  | nil => exact nodup
  | cons y rest ih => exact ih (nodup_add nodup y)

theorem nodup_ofList (ys : List α) : (ofList ys).Nodup := nodup_foldl_add List.nodup_nil ys

theorem foldl_add_sublist (ys xs : List α) : (ys.foldl add xs).Sublist (xs ++ ys) := by
  induction ys generalizing xs with
  | nil => simp
  | cons y rest ih =>
      have added : (add xs y).Sublist (xs ++ [y]) := by
        rw [add]
        split
        · exact List.sublist_append_left xs [y]
        · exact List.Sublist.refl _
      have whole := (ih (add xs y)).trans (added.append_right rest)
      rwa [List.append_assoc] at whole

theorem ofList_sublist (ys : List α) : (ofList ys).Sublist ys := foldl_add_sublist ys []

theorem foldl_add_of_nodup (nodup : (xs ++ ys).Nodup) : ys.foldl add xs = xs ++ ys := by
  induction ys generalizing xs with
  | nil => simp
  | cons y rest ih =>
      have new : y ∉ xs := fun mem =>
        (List.nodup_append.1 nodup).2.2 y mem y List.mem_cons_self rfl
      rw [List.append_cons] at nodup ⊢
      rw [List.foldl_cons, add_of_notMem new, ih nodup]

theorem ofList_of_nodup (nodup : ys.Nodup) : ofList ys = ys := foldl_add_of_nodup nodup

theorem ofList_cons_cons (x : α) (ys : List α) : ofList (x :: x :: ys) = ofList (x :: ys) := by
  rw [ofList_cons, ofList_cons, List.foldl_cons, add_of_mem (List.mem_singleton_self x)]

/-! ## Positions -/

section Positions

variable {β : Type} [BEq β] [LawfulBEq β] {xs : List β} {x : β}

theorem idxOf?_eq_some_iff (nodup : xs.Nodup) {i : Nat} :
    xs.idxOf? x = some i ↔ xs[i]? = some x := by
  rw [List.idxOf?_eq_some_iff, List.getElem?_eq_some_iff]
  constructor
  · rintro ⟨lt, same, -⟩
    exact ⟨lt, same⟩
  · rintro ⟨lt, same⟩
    refine ⟨lt, same, fun j before again => ?_⟩
    exact Nat.ne_of_lt before (nodup.getElem_inj_iff.1 (again.trans same.symm))

theorem idxOf?_concat (xs : List β) (x y : β) :
    (xs ++ [x]).idxOf? y = (xs.idxOf? y).or (if x == y then some xs.length else none) := by
  simp only [List.idxOf?, List.findIdx?_append, List.findIdx?_singleton]
  by_cases same : x = y
  · simp [same]
  · simp [same]

theorem idxOf_eq_iff (nodup : xs.Nodup) (mem : x ∈ xs) {i : Nat} :
    xs.idxOf x = i ↔ xs[i]? = some x := by
  have there := List.getElem?_idxOf mem
  constructor
  · rintro rfl
    exact there
  · intro again
    exact (List.getElem?_inj (List.idxOf_lt_length_of_mem mem) nodup).1 (there.trans again.symm)

theorem idxOf?_of_mem (nodup : xs.Nodup) (mem : x ∈ xs) : xs.idxOf? x = some (xs.idxOf x) :=
  (idxOf?_eq_some_iff nodup).2 (List.getElem?_idxOf mem)

end Positions

/-! ## Order -/

theorem idxOf_concat_lt_iff {z : α} (new : z ∉ xs) (mem : x ∈ xs ∨ x = z) (mem' : y ∈ xs ∨ y = z) :
    (xs ++ [z]).idxOf x < (xs ++ [z]).idxOf y ↔ x ∈ xs ∧ (y = z ∨ xs.idxOf x < xs.idxOf y) := by
  have last : (xs ++ [z]).idxOf z = xs.length := by
    rw [List.idxOf_append_of_notMem new, List.idxOf_cons_self, Nat.add_zero]
  have before : ∀ {a : α}, a ∈ xs → (xs ++ [z]).idxOf a = xs.idxOf a ∧ xs.idxOf a < xs.length :=
    fun old => ⟨List.idxOf_append_of_mem old, List.idxOf_lt_length_of_mem old⟩
  rcases mem with old | rfl
  · rcases mem' with old' | rfl
    · have other : y ≠ z := fun same => new (same ▸ old')
      rw [(before old).1, (before old').1, and_iff_right old, or_iff_right other]
    · rw [(before old).1, last]
      exact iff_of_true (before old).2 ⟨old, .inl rfl⟩
  · rw [last]
    refine iff_of_false ?_ fun both => new both.1
    rcases mem' with old' | rfl
    · rw [(before old').1]
      exact Nat.not_lt_of_lt (before old').2
    · rw [last]
      exact Nat.lt_irrefl _

structure FirstOccurrences (xs ys : List α) : Prop where
  nodup : xs.Nodup
  mem_iff : ∀ x, x ∈ xs ↔ x ∈ ys
  order : ∀ x ∈ ys, ∀ y ∈ ys, xs.idxOf x < xs.idxOf y ↔ ys.idxOf x < ys.idxOf y

theorem FirstOccurrences.concat (h : FirstOccurrences xs ys) (z : α) :
    FirstOccurrences (add xs z) (ys ++ [z]) where
  nodup := nodup_add h.nodup z
  mem_iff x := by rw [mem_add, h.mem_iff, List.mem_append, List.mem_singleton]
  order x mem y mem' := by
    by_cases known : z ∈ ys
    · have old : ∀ {a : α}, a ∈ ys ++ [z] → a ∈ ys := by
        intro a mem
        rcases List.mem_append.1 mem with old | last
        · exact old
        · exact List.mem_singleton.1 last ▸ known
      rw [add_of_mem ((h.mem_iff z).2 known), List.idxOf_append_of_mem (old mem),
        List.idxOf_append_of_mem (old mem')]
      exact h.order x (old mem) y (old mem')
    · have new : z ∉ xs := mt (h.mem_iff z).1 known
      rw [List.mem_append, List.mem_singleton] at mem mem'
      rw [add_of_notMem new, idxOf_concat_lt_iff known mem mem',
        idxOf_concat_lt_iff new (by rwa [h.mem_iff]) (by rwa [h.mem_iff]), h.mem_iff]
      apply and_congr_right
      intro old
      rcases mem' with old' | rfl
      · rw [h.order x old y old']
      · exact iff_of_true (.inl rfl) (.inl rfl)

theorem FirstOccurrences.foldl_add (h : FirstOccurrences xs ys) (zs : List α) :
    FirstOccurrences (zs.foldl add xs) (ys ++ zs) := by
  induction zs generalizing xs ys with
  | nil => simpa using h
  | cons z rest ih =>
      rw [List.append_cons]
      exact ih (h.concat z)

theorem firstOccurrences_ofList (ys : List α) : FirstOccurrences (ofList ys) ys := by
  have nothing : FirstOccurrences ([] : List α) [] := ⟨List.nodup_nil, by simp, by simp⟩
  exact nothing.foldl_add ys

end RegularLanguages.Distinct
