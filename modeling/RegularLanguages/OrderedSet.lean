/-! # Finite sets as strictly increasing lists

Alphabets and sets of states are lists whose elements strictly increase, so a
set has one written form: two such lists with the same members are equal
(`Increasing.ext`).  `insert`, `ofList` and `union` keep the order
(`Increasing.insert` and its companions) and have the members that their names
say. -/
set_option autoImplicit false
namespace RegularLanguages.OrderedSet

section Operations

variable {α : Type} [LT α] [DecidableLT α]

def Increasing (s : List α) : Prop := s.Pairwise (· < ·)

def insert (a : α) : List α → List α
  | [] => [a]
  | b :: rest =>
      if a < b then a :: b :: rest
      else if b < a then b :: insert a rest
      else b :: rest

def ofList (members : List α) : List α := members.foldr insert []

def union (s t : List α) : List α := s.foldr insert t

end Operations

/-! ## Members -/

section Members

variable {α : Type} [LT α] [DecidableLT α] [Std.Trichotomous (· < · : α → α → Prop)]

@[simp]
theorem mem_insert (a b : α) (s : List α) : b ∈ insert a s ↔ b = a ∨ b ∈ s := by
  induction s with
  | nil => simp [insert]
  | cons c rest ih =>
      by_cases below : a < c
      · simp [insert, below]
      · by_cases above : c < a
        · simp only [insert, if_neg below, if_pos above, List.mem_cons, ih]
          exact or_left_comm
        · have same : a = c := Std.Trichotomous.trichotomous a c below above
          have unchanged : insert a (c :: rest) = c :: rest := by
            rw [insert, if_neg below, if_neg above]
          rw [unchanged, same, List.mem_cons, ← or_assoc, or_self]

@[simp]
theorem mem_union (a : α) (s t : List α) : a ∈ union s t ↔ a ∈ s ∨ a ∈ t := by
  induction s with
  | nil => simp [union]
  | cons b rest ih =>
      have step : union (b :: rest) t = insert b (union rest t) := rfl
      rw [step, mem_insert, ih, List.mem_cons, or_assoc]

@[simp]
theorem mem_ofList (a : α) (members : List α) : a ∈ ofList members ↔ a ∈ members := by
  have same : ofList members = union members [] := rfl
  simp [same]

end Members

/-! ## Order -/

section Order

variable {α : Type} [LT α] [DecidableLT α]
  [Trans (· < · : α → α → Prop) (· < · : α → α → Prop) (· < · : α → α → Prop)]
  [Std.Trichotomous (· < · : α → α → Prop)]

theorem Increasing.insert {s : List α} (h : Increasing s) (a : α) :
    Increasing (OrderedSet.insert a s) := by
  induction s with
  | nil => simp [OrderedSet.insert, Increasing]
  | cons b rest ih =>
      have first := (List.pairwise_cons.1 h).1
      have tail := (List.pairwise_cons.1 h).2
      by_cases below : a < b
      · rw [OrderedSet.insert, if_pos below]
        refine List.pairwise_cons.2 ⟨fun c mem => ?_, h⟩
        rcases List.mem_cons.1 mem with rfl | mem
        · exact below
        · exact Trans.trans below (first c mem)
      · by_cases above : b < a
        · rw [OrderedSet.insert, if_neg below, if_pos above]
          refine List.pairwise_cons.2 ⟨fun c mem => ?_, ih tail⟩
          rcases (mem_insert a c rest).1 mem with rfl | mem
          · exact above
          · exact first c mem
        · rw [OrderedSet.insert, if_neg below, if_neg above]
          exact h

theorem Increasing.union {t : List α} (h : Increasing t) (s : List α) :
    Increasing (OrderedSet.union s t) := by
  induction s with
  | nil => exact h
  | cons a rest ih => exact ih.insert a

theorem increasing_ofList (members : List α) : Increasing (ofList members) :=
  Increasing.union List.Pairwise.nil members

omit [DecidableLT α] [Trans (· < · : α → α → Prop) (· < · : α → α → Prop) (· < · : α → α → Prop)]
  [Std.Trichotomous (· < · : α → α → Prop)] in
/-- A set has one written form. -/
theorem Increasing.ext [Std.Asymm (· < · : α → α → Prop)] {s t : List α} (hs : Increasing s)
    (ht : Increasing t) (members : ∀ a, a ∈ s ↔ a ∈ t) : s = t := by
  induction s generalizing t with
  | nil =>
      cases t with
      | nil => rfl
      | cons b _ => exact absurd ((members b).2 List.mem_cons_self) List.not_mem_nil
  | cons a rest ih =>
      cases t with
      | nil => exact absurd ((members a).1 List.mem_cons_self) List.not_mem_nil
      | cons b others =>
          have aLow := (List.pairwise_cons.1 hs).1
          have bLow := (List.pairwise_cons.1 ht).1
          have first : a = b := by
            rcases List.mem_cons.1 ((members a).1 List.mem_cons_self) with same | inT
            · exact same
            · rcases List.mem_cons.1 ((members b).2 List.mem_cons_self) with same | inS
              · exact same.symm
              · exact absurd (aLow b inS) (Std.Asymm.asymm b a (bLow a inT))
          subst first
          refine congrArg (a :: ·) (ih (List.pairwise_cons.1 hs).2 (List.pairwise_cons.1 ht).2
            fun c => ?_)
          constructor
          · intro mem
            rcases List.mem_cons.1 ((members c).1 (List.mem_cons_of_mem a mem)) with rfl | mem'
            · exact absurd (aLow c mem) (Std.Asymm.asymm c c (aLow c mem))
            · exact mem'
          · intro mem
            rcases List.mem_cons.1 ((members c).2 (List.mem_cons_of_mem a mem)) with rfl | mem'
            · exact absurd (bLow c mem) (Std.Asymm.asymm c c (bLow c mem))
            · exact mem'

theorem Increasing.insert_of_mem [Std.Asymm (· < · : α → α → Prop)] {s : List α} {a : α}
    (h : Increasing s) (mem : a ∈ s) : OrderedSet.insert a s = s := by
  apply (h.insert a).ext h
  intro b
  rw [mem_insert]
  exact or_iff_right_of_imp fun same => same ▸ mem

theorem Increasing.ofList_eq [Std.Asymm (· < · : α → α → Prop)] {s : List α} (h : Increasing s) :
    ofList s = s := (increasing_ofList s).ext h fun a => mem_ofList a s

theorem ofList_congr [Std.Asymm (· < · : α → α → Prop)] {xs ys : List α}
    (members : ∀ a, a ∈ xs ↔ a ∈ ys) : ofList xs = ofList ys := by
  apply (increasing_ofList xs).ext (increasing_ofList ys)
  intro a
  rw [mem_ofList, mem_ofList, members]

end Order

end RegularLanguages.OrderedSet
