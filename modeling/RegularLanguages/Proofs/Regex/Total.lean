import RegularLanguages.Proofs.Distinct
import RegularLanguages.Proofs.Regex.Simplify
import RegularLanguages.Regex.NormalForm

/-! # What the rules do to totals

The rules take the parts of a sequence or a choice apart, leave some out and put
neighbours together.  If neither taking a part apart nor putting neighbours
together adds to a count, the count of all parts together does not grow.  So no
round adds to `measure empty node`, a count of nodes in which the empty word
counts `empty` and a sequence or a choice `node` (`measure_reduce_le`). -/
set_option autoImplicit false
namespace RegularLanguages.Regex

variable {r : Regex} {items branches parts : List Regex} {f : Regex → Nat}
  {splice : Regex → List Regex} {empty node : Nat}

/-! ## Totals -/

def total (f : Regex → Nat) : List Regex → Nat
  | [] => 0
  | r :: rest => f r + total f rest

@[simp]
theorem total_nil (f : Regex → Nat) : total f [] = 0 := rfl

@[simp]
theorem total_cons (f : Regex → Nat) (r : Regex) (rest : List Regex) :
    total f (r :: rest) = f r + total f rest := rfl

@[simp]
theorem total_append (f : Regex → Nat) (items others : List Regex) :
    total f (items ++ others) = total f items + total f others := by
  induction items with
  | nil => exact (Nat.zero_add _).symm
  | cons item rest ih => rw [List.cons_append, total_cons, total_cons, ih, Nat.add_assoc]

theorem total_perm (perm : items.Perm parts) : total f items = total f parts := by
  induction perm with
  | nil => rfl
  | cons r _ ih => rw [total_cons, total_cons, ih]
  | swap r s rest => simp only [total_cons, Nat.add_left_comm]
  | trans _ _ first second => exact first.trans second

theorem total_le_of_sublist (sub : items.Sublist parts) : total f items ≤ total f parts := by
  induction sub with
  | slnil => exact Nat.le_refl _
  | cons r _ ih => rw [total_cons]; omega
  | cons_cons r _ ih => rw [total_cons, total_cons]; omega

theorem eq_of_total_le (pos : ∀ r, 0 < f r) (sub : items.Sublist parts)
    (le : total f parts ≤ total f items) : items = parts := by
  induction sub with
  | slnil => rfl
  | cons r below _ =>
      have least := total_le_of_sublist (f := f) below
      have lost := pos r
      rw [total_cons] at le
      omega
  | cons_cons r _ ih =>
      rw [total_cons, total_cons] at le
      rw [ih (by omega)]

theorem total_flatMap_le (each : ∀ item ∈ items, total f (splice item) ≤ f item) :
    total f (items.flatMap splice) ≤ total f items := by
  induction items with
  | nil => exact Nat.le_refl _
  | cons item rest ih =>
      have both := List.forall_mem_cons.1 each
      have others := ih both.2
      rw [List.flatMap_cons, total_append, total_cons]
      omega

/-- Where nothing is lost in total, no member loses anything. -/
theorem le_of_total_flatMap (each : ∀ item ∈ items, total f (splice item) ≤ f item)
    (le : total f items ≤ total f (items.flatMap splice)) :
    ∀ item ∈ items, f item ≤ total f (splice item) := by
  induction items with
  | nil => exact fun _ mem => absurd mem List.not_mem_nil
  | cons item rest ih =>
      have both := List.forall_mem_cons.1 each
      have others := total_flatMap_le both.2
      rw [List.flatMap_cons, total_append, total_cons] at le
      exact List.forall_mem_cons.2 ⟨by omega, ih both.2 (by omega)⟩

theorem total_map_le {change : Regex → Regex} (each : ∀ item ∈ items, f (change item) ≤ f item) :
    total f (items.map change) ≤ total f items := by
  rw [List.map_eq_flatMap]
  exact total_flatMap_le each

theorem le_of_total_map {change : Regex → Regex}
    (each : ∀ item ∈ items, f (change item) ≤ f item)
    (le : total f items ≤ total f (items.map change)) :
    ∀ item ∈ items, f item ≤ f (change item) := by
  rw [List.map_eq_flatMap] at le
  exact le_of_total_flatMap each le

/-! ## Sequences -/

def joinedItems (items : List Regex) : List Regex :=
  ((items.flatMap spliceItems).foldl addItem []).reverse

theorem joinSequence_eq (items : List Regex) : joinSequence items = concat (joinedItems items) :=
  rfl

/-- Two neighbours do not count more when they are put together. -/
def JoinsWithin (f : Regex → Nat) : Prop :=
  ∀ before after joined, joinItems? before after = some joined → f joined ≤ f before + f after

theorem total_addItem_le (joins : JoinsWithin f) (items : List Regex) (r : Regex) :
    total f (addItem items r) ≤ total f items + f r := by
  cases items with
  | nil => simp [addItem]
  | cons last rest =>
      rcases addItem_cons last rest r with ⟨joined, found, eq⟩ | eq
      · have within := joins last r joined found
        rw [eq, total_cons, total_cons]
        omega
      · rw [eq, total_cons, total_cons]
        omega

theorem total_foldl_addItem_le (joins : JoinsWithin f) (items parts : List Regex) :
    total f (items.foldl addItem parts) ≤ total f parts + total f items := by
  induction items generalizing parts with
  | nil => exact Nat.le_refl _
  | cons item rest ih =>
      have first := total_addItem_le joins parts item
      have others := ih (addItem parts item)
      rw [List.foldl_cons, total_cons]
      omega

theorem total_joinedItems_le (splices : ∀ r, total f (spliceItems r) ≤ f r)
    (joins : JoinsWithin f) (items : List Regex) :
    total f (joinedItems items) ≤ total f items := by
  have spliced := total_flatMap_le fun item (_ : item ∈ items) => splices item
  have joined := total_foldl_addItem_le joins (items.flatMap spliceItems) []
  rw [total_nil, Nat.zero_add] at joined
  rw [joinedItems, total_perm (List.reverse_perm _)]
  exact Nat.le_trans joined spliced

/-! ## Choices -/

theorem total_distinctBranches_le (splices : ∀ r, total f (spliceBranches r) ≤ f r)
    (branches : List Regex) : total f (distinctBranches branches) ≤ total f branches := by
  have spliced := total_flatMap_le fun branch (_ : branch ∈ branches) => splices branch
  exact Nat.le_trans (total_le_of_sublist (Distinct.ofList_sublist _)) spliced

theorem total_filter_le (mem : epsilon ∈ branches) :
    total f (branches.filter (· ≠ epsilon)) + f epsilon ≤ total f branches := by
  induction branches with
  | nil => cases mem
  | cons branch rest ih =>
      have others : total f (rest.filter (· ≠ epsilon)) ≤ total f rest :=
        total_le_of_sublist List.filter_sublist
      by_cases empty : branch = epsilon
      · subst empty
        rw [List.filter_cons_of_neg (by simp), total_cons]
        omega
      · have inRest := (List.mem_cons.1 mem).resolve_left (Ne.symm empty)
        have below := ih inRest
        rw [List.filter_cons_of_pos (by simpa using empty), total_cons, total_cons]
        omega

/-! ## Counting nodes -/

theorem measureAll_eq (empty node : Nat) (items : List Regex) :
    measureAll empty node items = total (measure empty node) items := by
  induction items with
  | nil => rfl
  | cons item rest ih => rw [measureAll, ih, total_cons]

theorem measure_cat (empty node : Nat) (items : List Regex) :
    measure empty node (cat items) = node + total (measure empty node) items := by
  rw [measure, measureAll_eq]

theorem measure_alt (empty node : Nat) (branches : List Regex) :
    measure empty node (alt branches) = node + total (measure empty node) branches := by
  rw [measure, measureAll_eq]

theorem measure_concat_le (empty node : Nat) (items : List Regex) :
    measure empty node (concat items) ≤
      (if 2 ≤ items.length then node else empty) + total (measure empty node) items := by
  match items with
  | [] => exact Nat.le_refl _
  | [item] => exact Nat.le_add_left _ _
  | first :: second :: rest => exact Nat.le_of_eq (measure_cat _ _ _)

theorem measure_alternation_le (empty node : Nat) (branches : List Regex) :
    measure empty node (alternation branches) ≤
      (if 2 ≤ branches.length then node else empty) + total (measure empty node) branches := by
  match branches with
  | [] => exact Nat.le_refl _
  | [branch] => exact Nat.le_add_left _ _
  | first :: second :: rest => exact Nat.le_of_eq (measure_alt _ _ _)

theorem total_spliceItems_le (empty node : Nat) (r : Regex) :
    total (measure empty node) (spliceItems r) ≤ measure empty node r := by
  cases r with
  | cat items => exact measure_cat _ _ _ ▸ Nat.le_add_left _ _
  | epsilon => exact Nat.zero_le _
  | _ => exact Nat.le_refl _

theorem total_spliceBranches_le (empty node : Nat) (r : Regex) :
    total (measure empty node) (spliceBranches r) ≤ measure empty node r := by
  cases r with
  | alt branches => exact measure_alt _ _ _ ▸ Nat.le_add_left _ _
  | _ => exact Nat.le_refl _

/-- A choice with the empty word counts that much less without it, even where
the rest is made optional. -/
theorem measure_joinChoice_of_epsilon (within : empty ≤ node)
    (mem : epsilon ∈ distinctBranches branches) :
    measure empty node (joinChoice branches) + empty ≤
      node + total (measure empty node) (distinctBranches branches) + 1 := by
  have less := total_filter_le (f := measure empty node) mem
  rw [measure] at less
  rcases joinChoice_cases branches with
    ⟨noEpsilon, -⟩ | ⟨rest, rfl, -, ⟨-, eq⟩ | ⟨-, -, eq⟩ | ⟨-, eq⟩⟩
  · exact absurd mem noEpsilon
  · rw [eq, measure]
    omega
  · have joined := measure_alternation_le empty node
      ((distinctBranches branches).filter (· ≠ epsilon))
    rw [eq]
    split at joined <;> omega
  · have joined := measure_alternation_le empty node
      ((distinctBranches branches).filter (· ≠ epsilon))
    rw [eq, measure]
    split at joined <;> omega

theorem measure_join_le (empty node : Nat) (operator : Repetition) (r : Regex) :
    measure empty node (operator.join r) ≤ 1 + measure empty node r := by
  rcases join_cases operator r with ⟨-, -, eq⟩ | eq | ⟨below, inner, rfl, eq⟩
  · rw [eq, measure_apply]
  · rw [eq]
    exact Nat.le_add_left _ _
  · rw [eq, measure_apply, measure]
    exact Nat.le_add_left _ _

section Rounds

variable (one : 1 ≤ empty) (within : empty ≤ node)

include one within

theorem measure_joinItems? {before after joined : Regex}
    (joins : joinItems? before after = some joined) :
    measure empty node joined < measure empty node before + measure empty node after := by
  rcases joinItems?_eq_some joins with ⟨rfl, rfl⟩ | ⟨rfl, rfl⟩ | ⟨inner, rfl, rfl, rfl⟩
  · have pos := measure_pos one within before
    simp only [measure]
    omega
  · have pos := measure_pos one within after
    simp only [measure]
    omega
  · simp only [measure]
    omega

theorem measure_joinSequence_le (items : List Regex) :
    measure empty node (joinSequence items) ≤ node + total (measure empty node) items := by
  have joined := measure_concat_le empty node (joinedItems items)
  have fewer := total_joinedItems_le (total_spliceItems_le empty node)
    (fun _ _ _ joins => Nat.le_of_lt (measure_joinItems? one within joins)) items
  rw [joinSequence_eq]
  split at joined <;> omega

theorem measure_joinChoice_le (branches : List Regex) :
    measure empty node (joinChoice branches) ≤ node + total (measure empty node) branches := by
  have fewer := total_distinctBranches_le (total_spliceBranches_le empty node) branches
  by_cases mem : epsilon ∈ distinctBranches branches
  · have joined := measure_joinChoice_of_epsilon within mem
    omega
  · have joined := measure_alternation_le empty node (distinctBranches branches)
    rcases joinChoice_cases branches with ⟨-, eq⟩ | ⟨rest, -, inside, -⟩
    · rw [eq]
      split at joined <;> omega
    · exact absurd inside mem

theorem measure_reduce_le (r : Regex) : measure empty node (reduce r) ≤ measure empty node r := by
  induction r using induct_apply with
  | epsilon => exact Nat.le_refl _
  | any => exact Nat.le_refl _
  | lit c => exact Nat.le_refl _
  | cat items each =>
      have joined := measure_joinSequence_le one within (items.map reduce)
      have fewer := total_map_le each
      rw [reduce, reduceAll_eq, measure_cat]
      omega
  | alt branches each =>
      have joined := measure_joinChoice_le one within (branches.map reduce)
      have fewer := total_map_le each
      rw [reduce, reduceAll_eq, measure_alt]
      omega
  | repeated operator inner ih =>
      rw [reduce_apply, measure_apply]
      exact Nat.le_trans (measure_join_le _ _ _ _) (Nat.add_le_add_left ih 1)

end Rounds

end RegularLanguages.Regex
