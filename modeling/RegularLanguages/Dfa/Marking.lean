import Mathlib.Data.List.Basic
import RegularLanguages.Dfa.Minimize

/-! # Marking names until they are free

How the names of groups are handed out: those of states that are alone are put
into a set beforehand, and a joined name gets a `'` at its end and is tried again
for as long as the set refuses it.  Nothing bounds the tries from outside.  A try
makes the name longer, and only so many names in the set are as long
(`longer_mark`). -/
set_option autoImplicit false
namespace RegularLanguages.Dfa

def longer (taken : Std.HashSet String) (name : String) : Nat :=
  (taken.toList.filter (name.length ≤ ·.length)).length

theorem longer_mark {taken : Std.HashSet String} {name : String} (inUse : name ∈ taken) :
    longer taken (name ++ "'") < longer taken name := by
  have step : (name ++ "'").length = name.length + 1 := by
    rw [String.length_append]
    rfl
  have smaller : taken.toList.filter ((name ++ "'").length ≤ ·.length) =
      (taken.toList.filter (name.length ≤ ·.length)).filter (name.length < ·.length) := by
    rw [List.filter_filter]
    refine List.filter_congr fun other _ => ?_
    rw [step, Bool.eq_iff_iff, Bool.and_eq_true, decide_eq_true_iff, decide_eq_true_iff,
      decide_eq_true_iff]
    omega
  rw [longer, longer, smaller, List.length_filter_lt_length_iff_exists]
  refine ⟨name, List.mem_filter.2 ⟨Std.HashSet.mem_toList.2 inUse, by simp⟩, by simp⟩

/-- Marks a name until the set does not have it, and puts it there. -/
def takeName (taken : Std.HashSet String) (name : String) : Std.HashSet String × String :=
  if inUse : name ∈ taken then
    have := longer_mark inUse
    takeName taken (name ++ "'")
  else (taken.insert name, name)
termination_by longer taken name

def handOut (d : Dfa) (taken : Std.HashSet String) : List (List Nat) → List String
  | [] => []
  | [q] :: rest => d.idOf q :: handOut d taken rest
  | group :: rest =>
      let (more, name) := takeName taken (d.joinedName group)
      name :: handOut d more rest

def uniqueNames (d : Dfa) (groups : List (List Nat)) : List String :=
  let alone := groups.filter (·.length = 1)
  d.handOut (Std.HashSet.ofList (alone.flatMap (·.map d.idOf))) groups

end RegularLanguages.Dfa
