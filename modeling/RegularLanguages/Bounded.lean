/-! # Sets and maps over the numbers below a bound

The bound is fixed when a set or map is made.  Asking whether a set holds a
number beyond the bound is answered with no; every other use of such a number
is refused. -/
set_option autoImplicit false
namespace RegularLanguages

structure BoundedSet where
  flags : List Bool
deriving DecidableEq

namespace BoundedSet

def empty (bound : Nat) : BoundedSet := ⟨List.replicate bound false⟩

def contains (s : BoundedSet) (key : Nat) : Bool := s.flags[key]?.getD false

/-- The set with a number added, and whether it was new. -/
def insert? (s : BoundedSet) (key : Nat) : Option (BoundedSet × Bool) :=
  match s.flags[key]? with
  | none => none
  | some true => some (s, false)
  | some false => some (⟨s.flags.set key true⟩, true)

def size (s : BoundedSet) : Nat := s.flags.count true

def room (s : BoundedSet) : Nat := s.flags.count false

def isEmpty (s : BoundedSet) : Bool := s.size == 0

def toList (s : BoundedSet) : List Nat := (List.range s.flags.length).filter s.contains

/-! ## Inserting -/

variable {s t : BoundedSet} {key : Nat}

theorem contains_empty (bound key : Nat) : (empty bound).contains key = false := by
  rw [contains, empty, List.getElem?_replicate]
  split <;> rfl

theorem insert?_of_contains (mem : s.contains key = true) : s.insert? key = some (s, false) := by
  rw [contains] at mem
  rw [insert?]
  cases flag : s.flags[key]? with
  | none => simp [flag] at mem
  | some known =>
      obtain rfl : known = true := by simpa [flag] using mem
      rfl

theorem exists_insert? (lt : key < s.flags.length) (new : s.contains key = false) :
    ∃ t, s.insert? key = some (t, true) ∧ t.flags.length = s.flags.length ∧
      ∀ other, t.contains other = true ↔ other = key ∨ s.contains other = true := by
  have free : s.flags[key]? = some false := by
    rw [contains, List.getElem?_eq_getElem lt] at new
    rw [List.getElem?_eq_getElem lt]
    exact congrArg some new
  refine ⟨⟨s.flags.set key true⟩, by rw [insert?, free], List.length_set, fun other => ?_⟩
  rw [contains, List.getElem?_set]
  by_cases same : key = other
  · simp [same, same ▸ lt]
  · rw [if_neg same, contains, or_iff_right fun eq => same eq.symm]

theorem room_insert? (h : s.insert? key = some (t, true)) : t.room + 1 = s.room := by
  rw [insert?] at h
  split at h
  next => cases h
  next => cases h
  next flag =>
    obtain rfl : ⟨s.flags.set key true⟩ = t := congrArg Prod.fst (Option.some.inj h)
    obtain ⟨lt, free⟩ := List.getElem?_eq_some_iff.1 flag
    have one : 0 < s.flags.count false := List.count_pos_iff.2 (free ▸ List.getElem_mem lt)
    simp only [room, List.count_set lt, free]
    exact Nat.sub_add_cancel one

end BoundedSet

structure BoundedMap (α : Type) where
  values : List α
deriving DecidableEq

namespace BoundedMap

variable {α : Type}

def const (bound : Nat) (value : α) : BoundedMap α := ⟨List.replicate bound value⟩

def get? (m : BoundedMap α) (key : Nat) : Option α := m.values[key]?

def insert? (m : BoundedMap α) (key : Nat) (value : α) : Option (BoundedMap α) :=
  if key < m.values.length then some ⟨m.values.set key value⟩ else none

end BoundedMap

end RegularLanguages
