import Mathlib.Data.List.Sort
import RegularLanguages.Nfa.DepthFirst
import RegularLanguages.Proofs.Distinct
import RegularLanguages.Proofs.Nfa.Built

/-! # The depth-first search finds the closure

Between the turns a state has been visited exactly if it was found, each found
state is led to by a listed one, and what a found state leads to is found as
well, unless the state still waits on the stack (`Progress`).  A turn keeps this,
so when no state waits the found ones are the closure.  They were found in some
order, but sorting gives a set its written form, so the list depends on nothing
but the closure as a set (`extendToClosure?_exact`). -/
set_option autoImplicit false
namespace RegularLanguages.Nfa

variable {n : Nfa} {states found : List Nat} {p q size : Nat}

namespace DepthFirst

variable {s : DepthFirst} {rest : List Nat}

/-! ## Meeting states -/

/-- The visited states are those that were found, each once. -/
structure Recorded (size : Nat) (s : DepthFirst) : Prop where
  bound : s.visited.flags.length = size
  visited : ∀ q, s.visited.contains q = true ↔ q ∈ s.found
  nodup : s.found.Nodup

theorem recorded_start (size : Nat) : Recorded size (start size) where
  bound := List.length_replicate
  visited := fun q => by simp [start, BoundedSet.contains_empty]
  nodup := List.nodup_nil

namespace Recorded

theorem exists_meet (recorded : Recorded size s) (lt : q < size) :
    ∃ met, s.meet q = some met ∧ Recorded size met ∧ met.found = Distinct.add s.found q ∧
      ∀ p, p ∈ met.stack ↔ p ∈ s.stack ∨ (p = q ∧ p ∉ s.found) := by
  by_cases known : q ∈ s.found
  · have same := BoundedSet.insert?_of_contains ((recorded.visited q).2 known)
    refine ⟨s, by rw [meet, same], recorded, (Distinct.add_of_mem known).symm, fun p => ?_⟩
    rw [or_iff_left]
    rintro ⟨rfl, new⟩
    exact new known
  · have free : s.visited.contains q = false :=
      Bool.eq_false_iff.2 fun visited => known ((recorded.visited q).1 visited)
    obtain ⟨visited, inserted, bound, members⟩ :=
      BoundedSet.exists_insert? (recorded.bound.symm ▸ lt) free
    refine ⟨⟨visited, s.found ++ [q], q :: s.stack⟩, by rw [meet, inserted], ?_,
      (Distinct.add_of_notMem known).symm, fun p => ?_⟩
    · refine ⟨bound.trans recorded.bound, fun p => ?_, ?_⟩
      · rw [members, recorded.visited, List.mem_append, List.mem_singleton, or_comm]
      · exact Distinct.add_of_notMem known ▸ Distinct.nodup_add recorded.nodup q
    · rw [List.mem_cons, or_comm]
      refine or_congr_right (iff_self_and.2 ?_)
      rintro rfl
      exact known

theorem exists_meetAll (recorded : Recorded size s) (inside : ∀ q ∈ states, q < size) :
    ∃ met, s.meetAll states = some met ∧ Recorded size met ∧
      (∀ q, q ∈ met.found ↔ q ∈ s.found ∨ q ∈ states) ∧
      ∀ q, q ∈ met.stack ↔ q ∈ s.stack ∨ (q ∈ states ∧ q ∉ s.found) := by
  induction states generalizing s with
  | nil => exact ⟨s, rfl, recorded, by simp, by simp⟩
  | cons p rest ih =>
      obtain ⟨inP, inRest⟩ := List.forall_mem_cons.1 inside
      obtain ⟨first, met, recorded', found, stack⟩ := recorded.exists_meet inP
      obtain ⟨last, metAll, recorded'', foundAll, stackAll⟩ := ih recorded' inRest
      refine ⟨last, by rw [meetAll, met]; exact metAll, recorded'', fun q => ?_, fun q => ?_⟩
      · rw [foundAll, found, Distinct.mem_add, List.mem_cons, or_assoc]
      · rw [stackAll, stack, found, Distinct.mem_add, List.mem_cons]
        by_cases same : q = p
        · simp [same]
        · simp [same]

end Recorded

/-! ## One turn -/

structure Progress (n : Nfa) (states : List Nat) (s : DepthFirst) : Prop
    extends Recorded n.size s where
  listed : states ⊆ s.found
  stacked : s.stack ⊆ s.found
  reached : ∀ q ∈ s.found, ∃ p ∈ states, Path n.edges p [] q
  explored : ∀ p ∈ s.found, p ∉ s.stack → ∀ q ∈ n.targets .epsilon p, q ∈ s.found

theorem exists_progress (inside : ∀ p ∈ states, p < n.size) :
    ∃ s, (start n.size).meetAll states = some s ∧ Progress n states s := by
  obtain ⟨s, met, recorded, found, stack⟩ := (recorded_start n.size).exists_meetAll inside
  have nothing : ∀ q, q ∉ (start n.size).found := fun _ => List.not_mem_nil
  have members : ∀ q, q ∈ s.found ↔ q ∈ states := fun q => by
    rw [found, or_iff_right (nothing q)]
  have waiting : ∀ q, q ∈ states → q ∈ s.stack := fun q mem => (stack q).2 (.inr ⟨mem, nothing q⟩)
  refine ⟨s, met, recorded, fun q mem => (members q).2 mem, fun q mem => ?_, fun q mem => ?_,
    fun p mem notWaiting => ?_⟩
  · rcases (stack q).1 mem with old | ⟨listed, -⟩
    · cases old
    · exact (members q).2 listed
  · exact ⟨q, (members q).1 mem, .stay q⟩
  · exact absurd (waiting p ((members p).1 mem)) notWaiting

theorem Progress.turn (progress : Progress n states s) (grounded : Grounded n)
    (waits : s.stack = p :: rest) :
    ∃ next, meetAll { s with stack := rest } (n.targets .epsilon p) = some next ∧
      Progress n states next := by
  have recorded : Recorded n.size { s with stack := rest } :=
    ⟨progress.bound, progress.visited, progress.nodup⟩
  obtain ⟨next, met, recorded', found, stack⟩ :=
    recorded.exists_meetAll (grounded.bounded .epsilon p)
  have top : p ∈ s.found := progress.stacked (waits ▸ List.mem_cons_self)
  have below : rest ⊆ s.stack := waits ▸ List.subset_cons_self p rest
  refine ⟨next, met, recorded', fun q mem => (found q).2 (.inl (progress.listed mem)),
    fun q mem => ?_, fun q mem => ?_, fun a mem notWaiting q target => ?_⟩
  · rcases (stack q).1 mem with old | ⟨target, -⟩
    · exact (found q).2 (.inl (progress.stacked (below old)))
    · exact (found q).2 (.inr target)
  · rcases (found q).1 mem with old | target
    · exact progress.reached q old
    · obtain ⟨first, listed, path⟩ := progress.reached p top
      exact ⟨first, listed, path.append (.silent (mem_targets.1 target) (.stay q))⟩
  · -- The state that was taken has its targets found now; the others had them before.
    by_cases taken : a = p
    · exact (found q).2 (.inr (taken ▸ target))
    · have old : a ∈ s.found := by
        rcases (found a).1 mem with old | new
        · exact old
        · by_contra unknown
          exact notWaiting ((stack a).2 (.inr ⟨new, unknown⟩))
      have settled : a ∉ s.stack := by
        rw [waits]
        intro waiting
        rcases List.mem_cons.1 waiting with same | later
        · exact taken same
        · exact notWaiting ((stack a).2 (.inl later))
      exact (found q).2 (.inl (progress.explored a old settled q target))

/-! ## The search as a whole -/

theorem Progress.exists_drain (progress : Progress n states s) (grounded : Grounded n) :
    ∃ found, s.drain n = some found ∧ found.Nodup ∧
      ∀ q, q ∈ found ↔ ∃ p ∈ states, Path n.edges p [] q := by
  fun_induction drain n s with
  | case1 s empty =>
      refine ⟨s.found, rfl, progress.nodup, fun q => ⟨progress.reached q, ?_⟩⟩
      rintro ⟨p, listed, path⟩
      have closed : Reach.Closed (n.targets .epsilon) s.found := fun p mem =>
        progress.explored p mem (empty ▸ List.not_mem_nil)
      exact closed.leads (leads_iff_path.2 path) (progress.listed listed)
  | case2 s p rest waits refused =>
      obtain ⟨next, met, -⟩ := progress.turn grounded waits
      cases met.symm.trans refused
  | case3 s p rest waits next met _ ih =>
      obtain ⟨other, met', progress'⟩ := progress.turn grounded waits
      obtain rfl := Option.some.inj (met'.symm.trans met)
      exact ih progress'

end DepthFirst

theorem increasing_mergeSort (nodup : found.Nodup) :
    OrderedSet.Increasing (found.mergeSort (· ≤ ·)) := by
  have different : (found.mergeSort (· ≤ ·)).Nodup :=
    (List.mergeSort_perm found _).nodup_iff.2 nodup
  exact (List.sortedLE_mergeSort.sortedLT_of_nodup different).pairwise

theorem extendToClosure?_eq (grounded : Grounded n) (inside : ∀ p ∈ states, p < n.size) :
    n.extendToClosure? states = some (n.closure states) := by
  obtain ⟨s, met, progress⟩ := DepthFirst.exists_progress inside
  obtain ⟨found, drained, nodup, members⟩ := progress.exists_drain grounded
  have same : found.mergeSort (· ≤ ·) = n.closure states := by
    refine (increasing_mergeSort nodup).ext (n.increasing_closure states) fun q => ?_
    rw [List.mem_mergeSort, members, grounded.mem_closure inside]
  rw [extendToClosure?, met]
  exact (congrArg (Option.map _) drained).trans (congrArg some same)

theorem Grounded.lt_of_mem_closure (grounded : Grounded n) (inside : ∀ p ∈ states, p < n.size)
    (mem : q ∈ n.closure states) : q < n.size := by
  obtain ⟨p, listed, path⟩ := (grounded.mem_closure inside).1 mem
  exact path.target_lt (fun e edge => (grounded.ends e edge).2) (inside p listed)

theorem Grounded.closure_closure (grounded : Grounded n) (inside : ∀ p ∈ states, p < n.size) :
    n.closure (n.closure states) = n.closure states := by
  refine (n.increasing_closure _).ext (n.increasing_closure states) fun q => ?_
  rw [grounded.mem_closure fun p => grounded.lt_of_mem_closure inside]
  constructor
  · rintro ⟨p, mem, path⟩
    obtain ⟨first, listed, before⟩ := (grounded.mem_closure inside).1 mem
    exact (grounded.mem_closure inside).2 ⟨first, listed, before.append path⟩
  · exact fun mem => ⟨q, mem, .stay q⟩

/-- Closing a list of states ends, and leaves in increasing order what paths lead
to that read nothing.  So lists that lead to the same states become the same
list, and closing again changes nothing. -/
theorem extendToClosure?_exact (grounded : Grounded n) (inside : ∀ p ∈ states, p < n.size) :
    ∃ closed, n.extendToClosure? states = some closed ∧
      closed = n.closure states ∧
      OrderedSet.Increasing closed ∧
      (∀ q, q ∈ closed ↔ ∃ p ∈ states, Path n.edges p [] q) ∧
      n.extendToClosure? closed = some closed ∧
      ∀ others, (∀ p ∈ others, p < n.size) →
        (∀ q, (∃ p ∈ others, Path n.edges p [] q) ↔ ∃ p ∈ states, Path n.edges p [] q) →
        n.extendToClosure? others = some closed := by
  refine ⟨n.closure states, extendToClosure?_eq grounded inside, rfl, n.increasing_closure states,
    fun q => grounded.mem_closure inside, ?_, fun others insideToo same => ?_⟩
  · rw [extendToClosure?_eq grounded fun p => grounded.lt_of_mem_closure inside,
      grounded.closure_closure inside]
  · rw [extendToClosure?_eq grounded insideToo]
    refine congrArg some ?_
    refine (n.increasing_closure others).ext (n.increasing_closure states) fun q => ?_
    rw [grounded.mem_closure insideToo, grounded.mem_closure inside, same]

/-- A listed state is repeated, and edges that read nothing go round. -/
theorem extendToClosure?_exact_cycle : Grounded (cycle .any) ∧
    (∀ p ∈ [2, 1, 2], p < (cycle .any).size) ∧
    (cycle .any).extendToClosure? [2, 1, 2] = some [0, 1, 2] ∧
    (cycle .any).extendToClosure? [0, 1, 2] = some [0, 1, 2] := by
  have grounded := (built_cycle .any).wellFormed.toGrounded
  have inside : ∀ p ∈ [2, 1, 2], p < (cycle .any).size := by decide
  have set : (cycle .any).closure [2, 1, 2] = [0, 1, 2] := by decide
  obtain ⟨closed, extended, rfl, -, -, again, -⟩ := extendToClosure?_exact grounded inside
  rw [set] at extended again
  exact ⟨grounded, inside, extended, again⟩

end RegularLanguages.Nfa
