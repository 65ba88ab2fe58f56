import Mathlib.Data.List.Chain
import RegularLanguages.Proofs.Regex.RoundTrip
import RegularLanguages.Proofs.Regex.Total

/-! # Simplification ends in a normal tree

A round of the rules leaves a tree as it is exactly if the tree is normal
(`reduce_eq_self_iff`).  No rule adds weight, so where a round loses none, each
part keeps its weight too and the rules for the node itself find nothing to do
(`isNormal_of_measure_le`).  Every tree that is not normal thus loses weight, and
as many rounds as the weight of a tree lead to one that stays as it is. -/
set_option autoImplicit false
namespace RegularLanguages.Regex

variable {r before after last : Regex} {items branches rest : List Regex} {f : Regex → Nat}
  {empty node rounds : Nat}

/-! ## Normal trees -/

def IsProper (r : Regex) : Prop :=
  ∀ s, Subtree s r → s ≠ epsilon ∧ FlatNode s ∧ NormalNode s

theorem isProper_iff : IsProper r ↔
    (r ≠ epsilon ∧ FlatNode r ∧ NormalNode r) ∧ ∀ part ∈ r.parts, IsProper part :=
  forall_subtree_iff

theorem IsNormal.proper (normal : IsNormal r) (notEpsilon : r ≠ epsilon) : IsProper r :=
  normal.resolve_left notEpsilon

theorem isProper_leaf (notEpsilon : r ≠ epsilon) (flat : FlatNode r) (node : NormalNode r)
    (leaf : r.parts = []) : IsProper r :=
  isProper_iff.2 ⟨⟨notEpsilon, flat, node⟩, fun _ mem => absurd (leaf ▸ mem) List.not_mem_nil⟩

theorem isProper_apply (operator : Repetition) :
    IsProper (operator.apply r) ↔ NormalNode (operator.apply r) ∧ IsProper r := by
  rw [isProper_iff, parts_apply, List.forall_mem_singleton]
  cases operator <;> simp [Repetition.apply, FlatNode]

def Unjoined (items : List Regex) : Prop :=
  items.IsChain fun before after => joinItems? before after = none

theorem joinItems?_eq_none_iff : joinItems? before after = none ↔ ¬Mergeable before after := by
  constructor
  · intro unjoined merges
    rw [joinItems?.eq_def] at unjoined
    by_cases first : after = star before
    · rw [if_pos first] at unjoined
      cases unjoined
    · by_cases second : before = star after
      · rw [if_neg first, if_pos second] at unjoined
        cases unjoined
      · obtain ⟨inner, rfl, rfl⟩ := (merges.resolve_left first).resolve_left second
        rw [if_neg first, if_neg second] at unjoined
        simp at unjoined
  · intro apart
    by_contra found
    obtain ⟨joined, joins⟩ := Option.ne_none_iff_exists'.1 found
    rcases joinItems?_eq_some joins with ⟨eq, -⟩ | ⟨eq, -⟩ | ⟨inner, eq, eq', -⟩
    · exact apart (.inl eq)
    · exact apart (.inr (.inl eq))
    · exact apart (.inr (.inr ⟨inner, eq, eq'⟩))

theorem normalNode_cat : NormalNode (cat items) ↔ Unjoined items := by
  constructor
  · intro normal
    exact (List.isChain_isInfix items).imp fun before after inside =>
      joinItems?_eq_none_iff.2 (normal before after inside)
  · intro unjoined before after inside
    have pair : Unjoined [before, after] := unjoined.infix inside
    exact joinItems?_eq_none_iff.1 (List.isChain_cons_cons.1 pair).1

/-! ## Sequences that stay as they are -/

def StaysItem (r : Regex) : Prop := r.isCat = false ∧ r ≠ epsilon

def StaysBranch (r : Regex) : Prop := r.isAlt = false ∧ r ≠ epsilon

theorem flatMap_eq_self {splice : Regex → List Regex}
    (each : ∀ item ∈ items, splice item = [item]) : items.flatMap splice = items :=
  (List.flatMap_congr each).trans (List.flatMap_singleton' items)

theorem spliceItems_eq_self (stays : StaysItem r) : spliceItems r = [r] := by
  cases r with
  | cat items => cases stays.1
  | epsilon => exact absurd rfl stays.2
  | _ => rfl

theorem spliceBranches_eq_self (stays : StaysBranch r) : spliceBranches r = [r] := by
  cases r with
  | alt branches => cases stays.1
  | _ => rfl

theorem foldl_addItem_of_unjoined (unjoined : Unjoined (last :: items)) (rest : List Regex) :
    items.foldl addItem (last :: rest) = items.reverse ++ last :: rest := by
  induction items generalizing last rest with
  | nil => rfl
  | cons item more ih =>
      have both := List.isChain_cons_cons.1 unjoined
      rw [List.foldl_cons, addItem, both.1]
      exact (ih both.2 (last :: rest)).trans (by simp)

theorem joinedItems_eq_self (stays : ∀ item ∈ items, StaysItem item) (unjoined : Unjoined items) :
    joinedItems items = items := by
  rw [joinedItems, flatMap_eq_self fun item mem => spliceItems_eq_self (stays item mem)]
  cases items with
  | nil => rfl
  | cons item rest =>
      rw [List.foldl_cons, addItem, foldl_addItem_of_unjoined unjoined]
      simp

theorem unjoined_of_total_le
    (joins : ∀ before after joined, joinItems? before after = some joined →
      f joined < f before + f after)
    (le : total f (last :: rest) + total f items ≤ total f (items.foldl addItem (last :: rest))) :
    Unjoined (last :: items) := by
  induction items generalizing last rest with
  | nil => exact List.isChain_singleton last
  | cons item more ih =>
      have within : JoinsWithin f := fun _ _ _ found => Nat.le_of_lt (joins _ _ _ found)
      rw [List.foldl_cons, addItem] at le
      cases found : joinItems? last item with
      | some joined =>
          simp only [found] at le
          have lost := joins last item joined found
          have others := total_foldl_addItem_le within more (joined :: rest)
          simp only [total_cons] at le others
          omega
      | none =>
          simp only [found] at le
          refine List.isChain_cons_cons.2 ⟨found, @ih item (last :: rest) ?_⟩
          simp only [total_cons] at le ⊢
          omega

/-! ## Normal trees stay as they are -/

theorem join_eq_apply (operator : Repetition) (notEpsilon : r ≠ epsilon)
    (normal : NormalNode (operator.apply r)) : operator.join r = operator.apply r := by
  cases operator with
  | star | plus =>
      cases r with
      | epsilon => exact absurd rfl notEpsilon
      | star inner | plus inner | opt inner => cases normal
      | _ => rfl
  | opt =>
      have otherwise : (if nullable r then r else opt r) = opt r := if_neg (by simp [normal.1])
      cases r with
      | star inner => cases normal.1
      | plus inner => cases normal.2
      | _ => exact otherwise

theorem map_reduce_eq_self (each : ∀ item ∈ items, reduce item = item) :
    items.map reduce = items :=
  (List.map_congr_left each).trans (List.map_id' _)

theorem reduce_of_isProper (proper : IsProper r) : reduce r = r := by
  induction r using induct_apply with
  | epsilon => rfl
  | any => rfl
  | lit c => rfl
  | cat items each =>
      obtain ⟨⟨-, ⟨two, noCat⟩, normal⟩, inner⟩ := isProper_iff.1 proper
      have same := map_reduce_eq_self fun item mem => each item mem (inner item mem)
      have stays : ∀ item ∈ items, StaysItem item := fun item mem =>
        ⟨noCat item mem, (inner item mem item (.self _)).1⟩
      rw [reduce, reduceAll_eq, same, joinSequence_eq,
        joinedItems_eq_self stays (normalNode_cat.1 normal), concat_of_two two]
  | alt branches each =>
      obtain ⟨⟨-, ⟨two, noAlt⟩, nodup⟩, inner⟩ := isProper_iff.1 proper
      have same := map_reduce_eq_self fun branch mem => each branch mem (inner branch mem)
      have stays : ∀ branch ∈ branches, StaysBranch branch := fun branch mem =>
        ⟨noAlt branch mem, (inner branch mem branch (.self _)).1⟩
      have distinct : distinctBranches branches = branches := by
        rw [distinctBranches,
          flatMap_eq_self fun branch mem => spliceBranches_eq_self (stays branch mem)]
        exact Distinct.ofList_of_nodup nodup
      have noEpsilon : epsilon ∉ branches := fun mem => (stays epsilon mem).2 rfl
      rw [reduce, reduceAll_eq, same, joinChoice, ← distinctBranches, distinct, if_neg noEpsilon,
        alternation_of_two two]
  | repeated operator inner ih =>
      obtain ⟨normal, operand⟩ := (isProper_apply operator).1 proper
      rw [reduce_apply, ih operand, join_eq_apply operator (operand inner (.self _)).1 normal]

theorem reduce_of_isNormal (normal : IsNormal r) : reduce r = r := by
  rcases normal with rfl | proper
  · rfl
  · exact reduce_of_isProper proper

/-! ## Rounds that lose nothing -/

theorem normal_of_measure_join (operator : Repetition)
    (le : measure empty node (operator.apply r) ≤ measure empty node (operator.join r)) :
    r ≠ epsilon ∧ NormalNode (operator.apply r) := by
  rw [measure_apply] at le
  rcases join_cases operator r with ⟨notEpsilon, normal, -⟩ | eq | ⟨below, inner, rfl, eq⟩
  · exact ⟨notEpsilon, normal⟩
  · rw [eq] at le
    omega
  · rw [eq, measure_apply, measure] at le
    omega

section Rounds

variable (two : 1 < empty) (below : empty < node)

include two below

theorem stays_of_total_spliceItems
    (le : measure empty node r ≤ total (measure empty node) (spliceItems r)) : StaysItem r := by
  cases r with
  | cat items =>
      rw [measure_cat, spliceItems] at le
      omega
  | epsilon =>
      rw [measure, spliceItems, total_nil] at le
      omega
  | _ => exact ⟨rfl, by simp⟩

/-- Items that lose nothing when they are joined are taken in as they are, and no
two neighbours are put together. -/
theorem stays_of_total_joinedItems
    (le : total (measure empty node) items ≤ total (measure empty node) (joinedItems items)) :
    (∀ item ∈ items, StaysItem item) ∧ Unjoined items := by
  have joins : ∀ before after joined, joinItems? before after = some joined →
      measure empty node joined < measure empty node before + measure empty node after :=
    fun _ _ _ => measure_joinItems? (Nat.le_of_lt two) (Nat.le_of_lt below)
  rw [joinedItems, total_perm (List.reverse_perm _)] at le
  have stays : ∀ item ∈ items, StaysItem item := by
    have folded := total_foldl_addItem_le (fun _ _ _ found => Nat.le_of_lt (joins _ _ _ found))
      (items.flatMap spliceItems) []
    rw [total_nil, Nat.zero_add] at folded
    intro item mem
    exact stays_of_total_spliceItems two below (le_of_total_flatMap
      (fun item _ => total_spliceItems_le empty node item) (Nat.le_trans le folded) item mem)
  refine ⟨stays, ?_⟩
  rw [flatMap_eq_self fun item mem => spliceItems_eq_self (stays item mem)] at le
  cases items with
  | nil => exact List.IsChain.nil
  | cons item rest =>
      rw [List.foldl_cons, addItem] at le
      change total _ [item] + total _ rest ≤ _ at le
      exact unjoined_of_total_le joins le

/-- The items of a sequence that loses nothing are two or more, and they are
what the rules make of them. -/
theorem proper_of_measure_joinSequence
    (le : measure empty node (cat items) ≤ measure empty node (joinSequence items)) :
    2 ≤ items.length ∧ (∀ item ∈ items, StaysItem item) ∧ Unjoined items := by
  have counted := measure_concat_le empty node (joinedItems items)
  have fewer := total_joinedItems_le (total_spliceItems_le empty node)
    (fun _ _ _ found => Nat.le_of_lt
      (measure_joinItems? (Nat.le_of_lt two) (Nat.le_of_lt below) found)) items
  rw [measure_cat, joinSequence_eq] at le
  have several : 2 ≤ (joinedItems items).length := by
    by_contra few
    rw [if_neg few] at counted
    omega
  rw [if_pos several] at counted
  obtain ⟨stays, unjoined⟩ := @stays_of_total_joinedItems items empty node two below (by omega)
  exact ⟨joinedItems_eq_self stays unjoined ▸ several, stays, unjoined⟩

theorem stays_of_total_spliceBranches (notEpsilon : r ≠ epsilon)
    (le : measure empty node r ≤ total (measure empty node) (spliceBranches r)) :
    StaysBranch r := by
  cases r with
  | alt branches =>
      rw [measure_alt, spliceBranches] at le
      omega
  | epsilon => exact absurd rfl notEpsilon
  | _ => exact ⟨rfl, notEpsilon⟩

theorem proper_of_measure_joinChoice
    (le : measure empty node (alt branches) ≤ measure empty node (joinChoice branches)) :
    2 ≤ branches.length ∧ (∀ branch ∈ branches, StaysBranch branch) ∧ branches.Nodup := by
  have one := Nat.le_of_lt two
  have within := Nat.le_of_lt below
  have splices : ∀ branch ∈ branches, total (measure empty node) (spliceBranches branch) ≤
      measure empty node branch := fun branch _ => total_spliceBranches_le empty node branch
  have sub : (distinctBranches branches).Sublist (branches.flatMap spliceBranches) :=
    Distinct.ofList_sublist _
  have spliced := total_flatMap_le splices
  have fewer := total_le_of_sublist (f := measure empty node) sub
  rw [measure_alt] at le
  have noEpsilon : epsilon ∉ distinctBranches branches := by
    intro mem
    have less := measure_joinChoice_of_epsilon within mem
    omega
  have joined : joinChoice branches = alternation (distinctBranches branches) := by
    rcases joinChoice_cases branches with ⟨-, eq⟩ | ⟨rest, -, mem, -⟩
    · exact eq
    · exact absurd mem noEpsilon
  have counted := measure_alternation_le empty node (distinctBranches branches)
  rw [joined] at le
  have several : 2 ≤ (distinctBranches branches).length := by
    by_contra few
    rw [if_neg few] at counted
    omega
  rw [if_pos several] at counted
  -- Nothing is lost, so the branches are those that were there, each once.
  have distinct := eq_of_total_le (measure_pos one within) sub (by omega)
  have kept := le_of_total_flatMap splices (by omega)
  have absent : epsilon ∉ branches := fun mem =>
    noEpsilon (mem_distinctBranches.2 ⟨epsilon, mem, List.mem_singleton_self _⟩)
  have stays : ∀ branch ∈ branches, StaysBranch branch := fun branch mem =>
    stays_of_total_spliceBranches two below (fun eq => absent (eq ▸ mem)) (kept branch mem)
  rw [flatMap_eq_self fun branch mem => spliceBranches_eq_self (stays branch mem)] at distinct
  exact ⟨distinct ▸ several, stays, distinct ▸ Distinct.nodup_ofList _⟩

/-- Parts that lose nothing together are normal each, and so a round leaves them
as they are. -/
theorem normal_of_total_map_reduce
    (each : ∀ item ∈ items,
      measure empty node item ≤ measure empty node (reduce item) → IsNormal item)
    (le : total (measure empty node) items ≤ total (measure empty node) (items.map reduce)) :
    (∀ item ∈ items, IsNormal item) ∧ items.map reduce = items := by
  have within := fun item (_ : item ∈ items) =>
    measure_reduce_le (Nat.le_of_lt two) (Nat.le_of_lt below) item
  have kept := le_of_total_map within le
  have normal : ∀ item ∈ items, IsNormal item := fun item mem => each item mem (kept item mem)
  exact ⟨normal, map_reduce_eq_self fun item mem => reduce_of_isNormal (normal item mem)⟩

/-- Where a round loses nothing the tree is normal: no part loses anything, so
all parts are normal and stay as they are, and the node itself loses nothing. -/
theorem isNormal_of_measure_le (le : measure empty node r ≤ measure empty node (reduce r)) :
    IsNormal r := by
  have one := Nat.le_of_lt two
  have within := Nat.le_of_lt below
  induction r using induct_apply with
  | epsilon => exact .inl rfl
  | any => exact .inr (isProper_leaf (by simp) trivial trivial rfl)
  | lit c => exact .inr (isProper_leaf (by simp) trivial trivial rfl)
  | cat items each =>
      rw [reduce, reduceAll_eq] at le
      have joined := measure_joinSequence_le one within (items.map reduce)
      have whole : total (measure empty node) items ≤
          total (measure empty node) (items.map reduce) := by
        rw [measure_cat] at le
        omega
      obtain ⟨normal, same⟩ := normal_of_total_map_reduce two below each whole
      rw [same] at le
      obtain ⟨several, stays, unjoined⟩ := proper_of_measure_joinSequence two below le
      refine .inr (isProper_iff.2 ⟨⟨by simp, ⟨several, fun item mem => (stays item mem).1⟩,
        normalNode_cat.2 unjoined⟩, fun item mem => (normal item mem).proper (stays item mem).2⟩)
  | alt branches each =>
      rw [reduce, reduceAll_eq] at le
      have joined := measure_joinChoice_le one within (branches.map reduce)
      have whole : total (measure empty node) branches ≤
          total (measure empty node) (branches.map reduce) := by
        rw [measure_alt] at le
        omega
      obtain ⟨normal, same⟩ := normal_of_total_map_reduce two below each whole
      rw [same] at le
      obtain ⟨several, stays, nodup⟩ := proper_of_measure_joinChoice two below le
      refine .inr (isProper_iff.2 ⟨⟨by simp, ⟨several, fun branch mem => (stays branch mem).1⟩,
        nodup⟩, fun branch mem => (normal branch mem).proper (stays branch mem).2⟩)
  | repeated operator inner ih =>
      have joined := measure_join_le empty node operator (reduce inner)
      have normal := ih (by rw [reduce_apply, measure_apply] at le; omega)
      rw [reduce_apply, reduce_of_isNormal normal] at le
      obtain ⟨notEpsilon, node⟩ := normal_of_measure_join operator le
      exact .inr ((isProper_apply operator).2 ⟨node, normal.proper notEpsilon⟩)

end Rounds

/-! ## Simplification -/

theorem reduce_eq_self_iff : reduce r = r ↔ IsNormal r := by
  constructor
  · intro same
    have two : 1 < 2 := Nat.one_lt_two
    have below : 2 < 3 := Nat.lt_succ_self 2
    exact isNormal_of_measure_le two below (Nat.le_of_eq (congrArg (measure 2 3) same.symm))
  · exact reduce_of_isNormal

theorem weight_reduce_lt (changes : reduce r ≠ r) : weight (reduce r) < weight r := by
  by_contra kept
  rw [Nat.not_lt] at kept
  exact changes (reduce_of_isNormal (isNormal_of_measure_le (by decide) (by decide) kept))

/-- With as many rounds as the weight of a tree, the rounds end at the first tree
that a round leaves as it is. -/
theorem exists_settle_eq_iterate (enough : weight r ≤ rounds) :
    ∃ n, settle rounds r = reduce^[n] r ∧ reduce (settle rounds r) = settle rounds r ∧
      ∀ k < n, reduce (reduce^[k] r) ≠ reduce^[k] r := by
  induction rounds generalizing r with
  | zero => exact absurd (weight_pos r) (Nat.not_lt.2 enough)
  | succ rounds ih =>
      rw [settle]
      by_cases same : reduce r = r
      · rw [if_pos same]
        exact ⟨0, rfl, same, fun k lt => absurd lt (Nat.not_lt_zero k)⟩
      · have lighter := weight_reduce_lt same
        obtain ⟨n, reached, settled, before⟩ := ih (r := reduce r) (by omega)
        rw [if_neg same]
        refine ⟨n + 1, reached, settled, fun k lt => ?_⟩
        cases k with
        | zero => exact same
        | succ k => exact before k (Nat.lt_of_succ_lt_succ lt)

theorem reduce_simplify (r : Regex) : reduce (simplify r) = simplify r := by
  obtain ⟨-, -, settled, -⟩ := exists_settle_eq_iterate (Nat.le_refl (weight r))
  exact settled

theorem simplify_eq_self_iff : simplify r = r ↔ IsNormal r := by
  constructor
  · intro same
    exact reduce_eq_self_iff.1 (same ▸ reduce_simplify r)
  · intro normal
    obtain ⟨n, reached, -, -⟩ := exists_settle_eq_iterate (Nat.le_refl (weight r))
    exact reached.trans (Function.iterate_fixed (reduce_of_isNormal normal) n)

/-- A simplified tree is normal, and its text is read back as that tree.  Only
normal trees are simplified to themselves. -/
theorem simplify_isNormal (r : Regex) :
    IsNormal (simplify r) ∧ parse (render (simplify r)) = .ok (simplify r) ∧
      (simplify r = r ↔ IsNormal r) :=
  ⟨reduce_eq_self_iff.1 (reduce_simplify r), parse_render_of_isFlat (isFlat_simplify r),
    simplify_eq_self_iff⟩

end RegularLanguages.Regex
