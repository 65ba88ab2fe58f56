import RegularLanguages.Proofs.Regex.Normalization

/-! # Simplification makes no expression longer

How long the text of a tree is depends on its place, since a tree that binds
weaker than its place asks for gets parentheses (`textLength`).  A round makes no
text longer, whatever the place (`textLength_reduce_le`), although the node it
builds may bind weaker than the one that was there: it then has given up an
operator or parentheses of its own. -/
set_option autoImplicit false
namespace RegularLanguages.Regex

variable {r : Regex} {items branches : List Regex} {needed : Nat}

/-! ## The length of a text in its place -/

/-- The parentheses around a tree of some strength in a place that asks for
`needed`. -/
def parentheses (own needed : Nat) : Nat := if own < needed then 2 else 0

/-- The length of the text of a tree in a place that asks for `needed`: 0 in a
choice, 1 in a sequence and 2 under an operator. -/
def textLength (needed : Nat) (r : Regex) : Nat := (group (strength r < needed) (text r)).length

theorem textLength_eq (needed : Nat) (r : Regex) :
    textLength needed r = (text r).length + parentheses (strength r) needed := by
  rw [textLength, group, parentheses]
  by_cases weak : strength r < needed
  · simp [weak]
  · simp [weak]

/-- Asking for more in two steps takes no fewer parentheses than in one. -/
theorem parentheses_le_add (own between needed : Nat) :
    parentheses own needed ≤ parentheses own between + parentheses between needed := by
  unfold parentheses
  split <;> split <;> split <;> omega

theorem parentheses_le_parentheses {more : Nat} (le : needed ≤ more) (own : Nat) :
    parentheses own needed ≤ parentheses own more := by
  unfold parentheses
  split <;> split <;> omega

theorem textLength_le_textLength {more : Nat} (le : needed ≤ more) (r : Regex) :
    textLength needed r ≤ textLength more r := by
  rw [textLength_eq, textLength_eq]
  exact Nat.add_le_add_left (parentheses_le_parentheses le _) _

theorem group_ne_nil {inside : List Char} (nonempty : inside ≠ []) (weak : Bool) :
    group weak inside ≠ [] := by
  cases weak with
  | false => exact nonempty
  | true => exact List.cons_ne_nil _ _

theorem text_ne_nil (r : Regex) : text r ≠ [] := by
  induction r with
  | epsilon => exact List.cons_ne_nil _ _
  | any => exact List.cons_ne_nil _ _
  | lit c =>
      rw [text, literalText]
      split <;> exact List.cons_ne_nil _ _
  | cat items each =>
      rw [text]
      cases items with
      | nil => exact List.cons_ne_nil _ _
      | cons item rest =>
          have first := group_ne_nil (each item List.mem_cons_self) (strength item < 1)
          cases rest with
          | nil => exact first
          | cons next rest => exact List.append_ne_nil_of_left_ne_nil first _
  | alt branches each =>
      rw [text]
      cases branches with
      | nil => exact List.cons_ne_nil _ _
      | cons branch rest =>
          have first := each branch List.mem_cons_self
          cases rest with
          | nil => exact first
          | cons next rest => exact List.append_ne_nil_of_left_ne_nil first _
  | _ => exact List.concat_ne_nil _ _

theorem textLength_pos (needed : Nat) (r : Regex) : 0 < textLength needed r := by
  rw [textLength_eq]
  exact Nat.add_pos_left (List.length_pos_iff.2 (text_ne_nil r)) _

theorem length_le_total {f : Regex → Nat} (pos : ∀ r, 0 < f r) (items : List Regex) :
    items.length ≤ total f items := by
  induction items with
  | nil => exact Nat.le_refl _
  | cons item rest ih =>
      have first := pos item
      rw [List.length_cons, total_cons]
      omega

/-! ## Repetitions -/

theorem textLength_epsilon (fits : needed ≤ 2) : textLength needed epsilon = 2 := by
  rw [textLength_eq, parentheses, if_neg (by simp only [strength]; omega)]
  rfl

theorem textLength_apply (fits : needed ≤ 2) (operator : Repetition) (r : Regex) :
    textLength needed (operator.apply r) = textLength 2 r + 1 := by
  rw [textLength_eq, strength_apply, parentheses, if_neg (Nat.not_lt.2 fits), text_apply,
    textLength, List.length_append]
  rfl

theorem textLength_join_le (fits : needed ≤ 2) (operator : Repetition) (r : Regex) :
    textLength needed (operator.join r) ≤ textLength 2 r + 1 := by
  rcases join_cases operator r with ⟨-, -, eq⟩ | eq | ⟨below, inner, rfl, eq⟩
  · rw [eq, textLength_apply fits]
  · rw [eq]
    exact Nat.le_succ_of_le (textLength_le_textLength fits r)
  · rw [eq, textLength_apply (Nat.le_refl 2) below]
    exact Nat.le_succ_of_le (Nat.le_of_eq (textLength_apply fits .star inner))

/-! ## Sequences -/

theorem length_sequenceText (nonempty : items ≠ []) :
    (sequenceText items).length = total (textLength 1) items := by
  induction items with
  | nil => exact absurd rfl nonempty
  | cons item rest ih =>
      cases rest with
      | nil => rfl
      | cons next rest =>
          rw [sequenceText, List.length_append, ih (List.cons_ne_nil next rest), total_cons]
          rfl

theorem textLength_cat (needed : Nat) (two : 2 ≤ items.length) :
    textLength needed (cat items) = total (textLength 1) items + parentheses 1 needed := by
  have nonempty : items ≠ [] := List.ne_nil_of_length_pos (Nat.lt_of_lt_of_le Nat.zero_lt_two two)
  rw [textLength_eq, text, strength, strengthOf_of_two two, length_sequenceText nonempty]

theorem textLength_le_cat_singleton (r : Regex) :
    textLength needed r ≤ textLength needed (cat [r]) := by
  rw [textLength_eq, textLength_eq, strength, strengthOf, text, length_sequenceText (by simp),
    total_cons, total_nil, textLength_eq 1]
  omega

theorem textLength_concat_le (needed : Nat) (nonempty : items ≠ []) :
    textLength needed (concat items) ≤ total (textLength 1) items + parentheses 1 needed := by
  match items with
  | [] => exact absurd rfl nonempty
  | [item] =>
      have asked := parentheses_le_add (strength item) 1 needed
      rw [concat, total_cons, total_nil, textLength_eq, textLength_eq]
      omega
  | first :: second :: rest => exact Nat.le_of_eq (textLength_cat needed (by simp))

theorem total_textLength_spliceItems_le (r : Regex) :
    total (textLength 1) (spliceItems r) ≤ textLength 1 r := by
  cases r with
  | cat items =>
      by_cases empty : items = []
      · subst empty
        exact Nat.zero_le _
      · rw [spliceItems, ← length_sequenceText empty, textLength_eq]
        exact Nat.le_add_right _ _
  | epsilon => exact Nat.zero_le _
  | _ => exact Nat.le_refl _

theorem joinsWithin_textLength : JoinsWithin (textLength 1) := by
  intro before after joined joins
  have same : ∀ r, textLength 1 (plus r) = textLength 1 (star r) := fun r =>
    have fits : 1 ≤ 2 := Nat.le_succ 1
    (textLength_apply fits .plus r).trans (textLength_apply fits .star r).symm
  rcases joinItems?_eq_some joins with ⟨rfl, rfl⟩ | ⟨rfl, rfl⟩ | ⟨inner, rfl, rfl, rfl⟩
  · rw [same]
    exact Nat.le_add_left _ _
  · rw [same]
    exact Nat.le_add_right _ _
  · exact Nat.le_add_left _ _

theorem textLength_joinSequence_le (fits : needed ≤ 2) (enough : 2 ≤ total (textLength 1) items) :
    textLength needed (joinSequence items) ≤
      total (textLength 1) items + parentheses 1 needed := by
  have fewer := total_joinedItems_le total_textLength_spliceItems_le joinsWithin_textLength items
  rw [joinSequence_eq]
  by_cases empty : joinedItems items = []
  · rw [empty, concat, textLength_epsilon fits]
    omega
  · have joined := textLength_concat_le needed empty
    omega

theorem textLength_joinSequence_singleton_le (fits : needed ≤ 2) (flat : IsFlat r) :
    textLength needed (joinSequence [r]) ≤ textLength needed r := by
  cases r with
  | cat items =>
      have two := (isFlat_cat.1 flat).1
      have several := Nat.le_trans two (length_le_total (textLength_pos 1) items)
      have whole : total (textLength 1) [cat items] = total (textLength 1) items := by
        rw [total_cons, total_nil, textLength_cat _ two]
        rfl
      have enough : 2 ≤ total (textLength 1) [cat items] := whole ▸ several
      have joined := textLength_joinSequence_le fits enough
      rw [whole] at joined
      rw [textLength_cat _ two]
      exact joined
  | _ => exact Nat.le_refl _

/-! ## Choices -/

def branchLength (r : Regex) : Nat := textLength 0 r + 1

theorem textLength_zero (r : Regex) : textLength 0 r = (text r).length :=
  textLength_eq 0 r

/-- Every branch but the last has a bar after it. -/
theorem length_choiceText (nonempty : branches ≠ []) :
    (choiceText branches).length + 1 = total branchLength branches := by
  induction branches with
  | nil => exact absurd rfl nonempty
  | cons branch rest ih =>
      cases rest with
      | nil => rfl
      | cons next rest =>
          have others := ih (List.cons_ne_nil next rest)
          rw [choiceText, List.length_append, List.length_cons, others, total_cons _ branch,
            branchLength, textLength_zero]
          omega

theorem textLength_alt (needed : Nat) (two : 2 ≤ branches.length) :
    textLength needed (alt branches) + 1 = total branchLength branches + parentheses 0 needed := by
  have nonempty : branches ≠ [] :=
    List.ne_nil_of_length_pos (Nat.lt_of_lt_of_le Nat.zero_lt_two two)
  have whole := length_choiceText nonempty
  rw [textLength_eq, text, strength, strengthOf_of_two two]
  omega

theorem textLength_alternation_le (needed : Nat) (nonempty : branches ≠ []) :
    textLength needed (alternation branches) + 1 ≤
      total branchLength branches + parentheses 0 needed := by
  match branches with
  | [] => exact absurd rfl nonempty
  | [branch] =>
      have asked := parentheses_le_add (strength branch) 0 needed
      rw [alternation, total_cons, total_nil, branchLength, textLength_eq, textLength_eq]
      omega
  | first :: second :: rest => exact Nat.le_of_eq (textLength_alt needed (by simp))

theorem total_branchLength_spliceBranches_le (r : Regex) :
    total branchLength (spliceBranches r) ≤ branchLength r := by
  cases r with
  | alt branches =>
      by_cases empty : branches = []
      · subst empty
        exact Nat.zero_le _
      · rw [spliceBranches, ← length_choiceText empty, branchLength, textLength_zero, text]
  | _ => exact Nat.le_refl _

theorem distinctBranches_ne_nil (mem : r ∈ branches) (flat : IsFlat r) :
    distinctBranches branches ≠ [] := by
  obtain ⟨s, inBranch⟩ := List.exists_mem_of_ne_nil _ (spliceBranches_ne_nil flat)
  exact List.ne_nil_of_mem (mem_distinctBranches.2 ⟨r, mem, inBranch⟩)

/-- Without the empty word a choice has room for parentheses and an operator. -/
theorem textLength_joinChoice_le (fits : needed ≤ 2) (nonempty : distinctBranches branches ≠ []) :
    textLength needed (joinChoice branches) + 1 ≤
      total branchLength branches + parentheses 0 needed := by
  have fewer := total_distinctBranches_le total_branchLength_spliceBranches_le branches
  have less : epsilon ∈ distinctBranches branches →
      total branchLength ((distinctBranches branches).filter (· ≠ epsilon)) + 3 ≤
        total branchLength (distinctBranches branches) := fun mem => total_filter_le mem
  rcases joinChoice_cases branches with
    ⟨-, eq⟩ | ⟨rest, rfl, mem, ⟨-, eq⟩ | ⟨others, -, eq⟩ | ⟨others, eq⟩⟩
  · have joined := textLength_alternation_le needed nonempty
    rw [eq]
    omega
  · have lost := less mem
    rw [eq, textLength_epsilon fits]
    omega
  · have lost := less mem
    have joined := textLength_alternation_le needed others
    rw [eq]
    omega
  · have lost := less mem
    have joined := textLength_alternation_le 2 others
    have optional := textLength_apply fits .opt
      (alternation ((distinctBranches branches).filter (· ≠ epsilon)))
    rw [eq]
    change textLength needed (opt _) = _ at optional
    have two : parentheses 0 2 = 2 := rfl
    omega

theorem textLength_joinChoice_singleton_le (fits : needed ≤ 2) (flat : IsFlat r) :
    textLength needed (joinChoice [r]) ≤ textLength needed r := by
  cases r with
  | alt branches =>
      have two := (isFlat_alt.1 flat).1
      have whole : total branchLength [alt branches] = total branchLength branches := by
        rw [total_cons, total_nil, branchLength, textLength_alt _ two]
        rfl
      have nonempty := distinctBranches_ne_nil (List.mem_singleton_self _) flat
      have joined := textLength_joinChoice_le fits nonempty
      have same := textLength_alt needed two
      omega
  | epsilon => exact Nat.le_refl _
  | _ => exact Nat.le_refl _

/-! ## Rounds and simplification -/

theorem textLength_empty_cat (fits : needed ≤ 2) : textLength needed (cat []) = 2 := by
  rw [← textLength_epsilon fits, textLength_eq, textLength_eq]
  rfl

theorem textLength_empty_alt (fits : needed ≤ 2) : textLength needed (alt []) = 2 := by
  rw [← textLength_epsilon fits, textLength_eq, textLength_eq]
  rfl

theorem textLength_reduce_cat_le (fits : needed ≤ 2)
    (each : ∀ item ∈ items, ∀ place ≤ 2, textLength place (reduce item) ≤ textLength place item) :
    textLength needed (reduce (cat items)) ≤ textLength needed (cat items) := by
  rw [reduce, reduceAll_eq]
  cases items with
  | nil => exact Nat.le_of_eq ((textLength_epsilon fits).trans (textLength_empty_cat fits).symm)
  | cons first rest =>
      cases rest with
      | nil =>
          calc textLength needed (joinSequence [reduce first])
              ≤ textLength needed (reduce first) :=
                textLength_joinSequence_singleton_le fits (isFlat_reduce first)
            _ ≤ textLength needed first := each first List.mem_cons_self needed fits
            _ ≤ textLength needed (cat [first]) := textLength_le_cat_singleton first
      | cons second rest =>
          have two : 2 ≤ (first :: second :: rest).length := by simp
          have shorter := total_map_le (f := textLength 1) fun item mem =>
            each item mem 1 (Nat.le_succ 1)
          have several := length_le_total (textLength_pos 1) ((first :: second :: rest).map reduce)
          rw [List.length_map] at several
          have joined := textLength_joinSequence_le fits (Nat.le_trans two several)
          rw [textLength_cat needed two]
          omega

theorem textLength_reduce_alt_le (fits : needed ≤ 2)
    (each : ∀ branch ∈ branches, ∀ place ≤ 2,
      textLength place (reduce branch) ≤ textLength place branch) :
    textLength needed (reduce (alt branches)) ≤ textLength needed (alt branches) := by
  rw [reduce, reduceAll_eq]
  cases branches with
  | nil => exact Nat.le_of_eq ((textLength_epsilon fits).trans (textLength_empty_alt fits).symm)
  | cons first rest =>
      cases rest with
      | nil =>
          calc textLength needed (joinChoice [reduce first])
              ≤ textLength needed (reduce first) :=
                textLength_joinChoice_singleton_le fits (isFlat_reduce first)
            _ ≤ textLength needed first := each first List.mem_cons_self needed fits
      | cons second rest =>
          have two : 2 ≤ (first :: second :: rest).length := by simp
          have shorter := total_map_le (f := branchLength) fun branch mem =>
            Nat.succ_le_succ (each branch mem 0 (Nat.zero_le 2))
          have nonempty : distinctBranches ((first :: second :: rest).map reduce) ≠ [] :=
            distinctBranches_ne_nil List.mem_cons_self (isFlat_reduce first)
          have joined := textLength_joinChoice_le fits nonempty
          have whole := textLength_alt needed two
          omega

theorem textLength_reduce_le (fits : needed ≤ 2) (r : Regex) :
    textLength needed (reduce r) ≤ textLength needed r := by
  induction r using induct_apply generalizing needed with
  | epsilon => exact Nat.le_refl _
  | any => exact Nat.le_refl _
  | lit c => exact Nat.le_refl _
  | cat items each => exact textLength_reduce_cat_le fits fun item mem _ le => each item mem le
  | alt branches each =>
      exact textLength_reduce_alt_le fits fun branch mem _ le => each branch mem le
  | repeated operator inner ih =>
      rw [reduce_apply, textLength_apply fits]
      exact Nat.le_trans (textLength_join_le fits _ _) (Nat.succ_le_succ (ih (Nat.le_refl 2)))

theorem size_reduce_le (r : Regex) : size (reduce r) ≤ size r :=
  measure_reduce_le (Nat.le_refl 1) (Nat.le_refl 1) r

/-- The rounds end at the first tree that a round leaves as it is.  It has no
more nodes than the tree they began with, and its text is no longer. -/
theorem simplify_settles_and_shortens (r : Regex) :
    (∃ n, simplify r = reduce^[n] r ∧ reduce (simplify r) = simplify r ∧
      ∀ k < n, reduce (reduce^[k] r) ≠ reduce^[k] r) ∧
    size (simplify r) ≤ size r ∧ (render (simplify r)).length ≤ (render r).length := by
  have smaller : size (simplify r) ≤ size r :=
    settle_induction (motive := fun s => size s ≤ size r)
      (fun s le => Nat.le_trans (size_reduce_le s) le) _ (Nat.le_refl _)
  have shorter : textLength 0 (simplify r) ≤ textLength 0 r :=
    settle_induction (motive := fun s => textLength 0 s ≤ textLength 0 r)
      (fun s le => Nat.le_trans (textLength_reduce_le (Nat.zero_le 2) s) le) _ (Nat.le_refl _)
  rw [textLength_zero, textLength_zero] at shorter
  refine ⟨exists_settle_eq_iterate (Nat.le_refl _), smaller, ?_⟩
  simpa [render] using shorter

end RegularLanguages.Regex
