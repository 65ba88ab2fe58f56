import Mathlib.Data.List.Perm.Subperm
import Mathlib.Logic.Relation
import RegularLanguages.Reach

/-! # The search by layers finds what some path leads to

`mem_reach` says that the rounds are enough: in a graph whose edges stay below
`size` the search returns exactly the nodes that some number of steps leads to
from a member of the start, as a set in its written form.

The invariant of the rounds is that every successor of a seen node is seen,
unless the node belongs to the frontier.  Each round but the last adds a node,
and a seen set with `size` members has no successors outside. -/
set_option autoImplicit false
namespace RegularLanguages

namespace OrderedSet

theorem Increasing.nodup {α : Type} [LT α] [Std.Irrefl (· < · : α → α → Prop)] {s : List α}
    (h : Increasing s) : s.Nodup := by
  apply List.Pairwise.imp _ h
  intro a b less same
  subst same
  exact Std.Irrefl.irrefl a less

theorem Increasing.mem_of_length {s : List Nat} {size q : Nat} (h : Increasing s)
    (bounded : ∀ q ∈ s, q < size) (full : size ≤ s.length) (lt : q < size) : q ∈ s := by
  have inRange : s ⊆ List.range size := fun q mem => List.mem_range.2 (bounded q mem)
  have perm : s.Perm (List.range size) :=
    (h.nodup.subperm inRange).perm_of_length_le (by rwa [List.length_range])
  exact perm.mem_iff.2 (List.mem_range.2 lt)

theorem Increasing.length_lt {s t : List Nat} {q : Nat} (h : Increasing s) (sub : s ⊆ t)
    (member : q ∈ t) (new : q ∉ s) : s.length < t.length := by
  have nodup : (q :: s).Nodup := List.nodup_cons.2 ⟨new, h.nodup⟩
  have inside : q :: s ⊆ t := List.cons_subset.2 ⟨member, sub⟩
  exact (nodup.subperm inside).length_le

end OrderedSet

namespace Reach

variable {next : Nat → List Nat} {size rounds : Nat} {seen frontier start : List Nat} {p q : Nat}

def Leads (next : Nat → List Nat) : Nat → Nat → Prop :=
  Relation.ReflTransGen fun p q => q ∈ next p

def Closed (next : Nat → List Nat) (nodes : List Nat) : Prop :=
  ∀ p ∈ nodes, ∀ q ∈ next p, q ∈ nodes

def Bounded (next : Nat → List Nat) (size : Nat) : Prop := ∀ p, ∀ q ∈ next p, q < size

theorem Closed.leads (closed : Closed next seen) (leads : Leads next p q) (mem : p ∈ seen) :
    q ∈ seen := by
  induction leads with
  | refl => exact mem
  | tail _ step ih => exact closed _ ih _ step

theorem mem_layer :
    q ∈ layer next seen frontier ↔ (∃ p ∈ frontier, q ∈ next p) ∧ q ∉ seen := by
  simp [layer]

theorem spread_succ (next : Nat → List Nat) (rounds : Nat) (seen frontier : List Nat) :
    spread next (rounds + 1) seen frontier =
      if layer next seen frontier = [] then seen
      else spread next rounds (OrderedSet.union (layer next seen frontier) seen)
        (layer next seen frontier) := by
  rw [spread]
  split
  next empty => rw [if_pos empty]
  next nonempty => rw [if_neg nonempty]

structure Searching (next : Nat → List Nat) (size rounds : Nat) (seen frontier : List Nat) :
    Prop where
  increasing : OrderedSet.Increasing seen
  bounded : ∀ q ∈ seen, q < size
  enough : size ≤ rounds + seen.length
  explored : ∀ p ∈ seen, p ∉ frontier → ∀ q ∈ next p, q ∈ seen
  frontier : frontier ⊆ seen

theorem Searching.step (state : Searching next size (rounds + 1) seen frontier)
    (stays : Bounded next size) (more : layer next seen frontier ≠ []) :
    Searching next size rounds (OrderedSet.union (layer next seen frontier) seen)
      (layer next seen frontier) where
  increasing := state.increasing.union _
  bounded := by
    intro q mem
    rcases (OrderedSet.mem_union q _ _).1 mem with new | old
    · obtain ⟨⟨p, -, step⟩, -⟩ := mem_layer.1 new
      exact stays p q step
    · exact state.bounded q old
  enough := by
    obtain ⟨q, new⟩ := List.exists_mem_of_ne_nil _ more
    have sub : seen ⊆ OrderedSet.union (layer next seen frontier) seen :=
      fun p mem => (OrderedSet.mem_union p _ _).2 (.inr mem)
    have longer := state.increasing.length_lt sub ((OrderedSet.mem_union q _ _).2 (.inl new))
      (mem_layer.1 new).2
    have enough := state.enough
    omega
  explored := by
    intro p mem notNew q step
    rcases (OrderedSet.mem_union p _ _).1 mem with new | old
    · exact absurd new notNew
    · by_cases known : q ∈ seen
      · exact (OrderedSet.mem_union q _ _).2 (.inr known)
      · by_cases fromFrontier : p ∈ frontier
        · exact (OrderedSet.mem_union q _ _).2 (.inl (mem_layer.2 ⟨⟨p, fromFrontier, step⟩, known⟩))
        · exact absurd (state.explored p old fromFrontier q step) known
  frontier := fun q mem => (OrderedSet.mem_union q _ _).2 (.inl mem)

theorem increasing_spread (next : Nat → List Nat) (rounds : Nat) :
    ∀ {seen : List Nat} (frontier : List Nat), OrderedSet.Increasing seen →
      OrderedSet.Increasing (spread next rounds seen frontier) := by
  induction rounds with
  | zero => exact fun _ increasing => increasing
  | succ rounds ih =>
      intro seen frontier increasing
      rw [spread_succ]
      split
      · exact increasing
      · exact ih _ (increasing.union _)

theorem subset_spread (next : Nat → List Nat) (rounds : Nat) :
    ∀ seen frontier : List Nat, seen ⊆ spread next rounds seen frontier := by
  induction rounds with
  | zero => exact fun seen _ => List.Subset.refl seen
  | succ rounds ih =>
      intro seen frontier
      rw [spread_succ]
      split
      · exact List.Subset.refl seen
      · exact fun q mem => ih _ _ ((OrderedSet.mem_union q _ _).2 (.inr mem))

theorem closed_spread (stays : Bounded next size) :
    ∀ {rounds : Nat} {seen frontier : List Nat}, Searching next size rounds seen frontier →
      Closed next (spread next rounds seen frontier) := by
  intro rounds
  induction rounds with
  | zero =>
      intro seen frontier state p _ q step
      have full : size ≤ seen.length := by simpa using state.enough
      exact state.increasing.mem_of_length state.bounded full (stays p q step)
  | succ rounds ih =>
      intro seen frontier state
      rw [spread_succ]
      split
      next nothingNew =>
        intro p mem q step
        by_contra unseen
        by_cases fromFrontier : p ∈ frontier
        · have new := mem_layer.2 ⟨⟨p, fromFrontier, step⟩, unseen⟩
          rw [nothingNew] at new
          exact List.not_mem_nil new
        · exact unseen (state.explored p mem fromFrontier q step)
      next more => exact ih (state.step stays more)

theorem leads_of_mem_spread (rounds : Nat) :
    ∀ {seen frontier : List Nat}, frontier ⊆ seen → ∀ {q : Nat},
      q ∈ spread next rounds seen frontier → ∃ p ∈ seen, Leads next p q := by
  induction rounds with
  | zero => exact fun _ q mem => ⟨q, mem, .refl⟩
  | succ rounds ih =>
      intro seen frontier sub q mem
      rw [spread_succ] at mem
      split at mem
      · exact ⟨q, mem, .refl⟩
      · have inside : layer next seen frontier ⊆
            OrderedSet.union (layer next seen frontier) seen :=
          fun p new => (OrderedSet.mem_union p _ _).2 (.inl new)
        obtain ⟨p, found, leads⟩ := ih inside mem
        rcases (OrderedSet.mem_union p _ _).1 found with new | old
        · obtain ⟨⟨r, fromFrontier, step⟩, -⟩ := mem_layer.1 new
          exact ⟨r, sub fromFrontier, .head step leads⟩
        · exact ⟨p, old, leads⟩

/-! ## The search as a whole -/

theorem increasing_reach (next : Nat → List Nat) (size : Nat) (start : List Nat) :
    OrderedSet.Increasing (reach next size start) :=
  increasing_spread next size _ (OrderedSet.increasing_ofList start)

theorem mem_reach (stays : Bounded next size) (inside : ∀ p ∈ start, p < size) :
    q ∈ reach next size start ↔ ∃ p ∈ start, Leads next p q := by
  have begun : Searching next size size (OrderedSet.ofList start) (OrderedSet.ofList start) :=
    { increasing := OrderedSet.increasing_ofList start
      bounded := fun p mem => inside p ((OrderedSet.mem_ofList p start).1 mem)
      enough := Nat.le_add_right _ _
      explored := fun p mem notNew => absurd mem notNew
      frontier := List.Subset.refl _ }
  constructor
  · intro mem
    obtain ⟨p, found, leads⟩ := leads_of_mem_spread size (List.Subset.refl _) mem
    exact ⟨p, (OrderedSet.mem_ofList p start).1 found, leads⟩
  · rintro ⟨p, mem, leads⟩
    exact (closed_spread stays begun).leads leads
      (subset_spread next size _ _ ((OrderedSet.mem_ofList p start).2 mem))

end Reach

end RegularLanguages
