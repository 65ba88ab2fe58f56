import RegularLanguages.TableError

/-! # Checks in a fixed order

A table is checked against a list of conditions, each with the error it
stands for.  The error of the first condition that is met is reported. -/
set_option autoImplicit false
namespace RegularLanguages

structure Check where
  violated : Prop
  error : TableError

/-- The error of the first check that is violated. -/
inductive FirstFault : List Check → TableError → Prop where
  | here {check : Check} {rest : List Check} :
      check.violated → FirstFault (check :: rest) check.error
  | later {check : Check} {rest : List Check} {error : TableError} :
      ¬check.violated → FirstFault rest error → FirstFault (check :: rest) error

theorem FirstFault.unique {checks : List Check} {e f : TableError} (h : FirstFault checks e)
    (g : FirstFault checks f) : e = f := by
  induction h with
  | here v =>
      cases g with
      | here => rfl
      | later nv => exact absurd v nv
  | later nv _ ih =>
      cases g with
      | here v => exact absurd v nv
      | later _ g => exact ih g

theorem exists_firstFault_iff (checks : List Check) :
    (∃ e, FirstFault checks e) ↔ ∃ check ∈ checks, check.violated := by
  induction checks with
  | nil =>
      constructor
      · rintro ⟨_, h⟩
        cases h
      · rintro ⟨_, h, _⟩
        cases h
  | cons check rest ih =>
      constructor
      · rintro ⟨e, h⟩
        cases h with
        | here v => exact ⟨check, List.mem_cons_self, v⟩
        | later _ h =>
            obtain ⟨found, mem, v⟩ := ih.1 ⟨e, h⟩
            exact ⟨found, List.mem_cons_of_mem _ mem, v⟩
      · rintro ⟨found, mem, v⟩
        by_cases now : check.violated
        · exact ⟨_, .here now⟩
        · rcases List.mem_cons.1 mem with rfl | mem
          · exact absurd v now
          · obtain ⟨e, h⟩ := ih.2 ⟨found, mem, v⟩
            exact ⟨e, .later now h⟩

theorem FirstFault.append {checks : List Check} {e : TableError} (h : FirstFault checks e)
    (more : List Check) : FirstFault (checks ++ more) e := by
  induction h with
  | here v => exact .here v
  | later nv _ ih => exact .later nv ih

theorem FirstFault.after {more : List Check} {e : TableError} (h : FirstFault more e)
    {checks : List Check} (passed : ∀ check ∈ checks, ¬check.violated) :
    FirstFault (checks ++ more) e := by
  induction checks with
  | nil => exact h
  | cons check rest ih =>
      rw [List.forall_mem_cons] at passed
      exact .later passed.1 (ih passed.2)

/-- Where one check is made of each member of a list, the first member that
violates it is reported. -/
theorem FirstFault.of_find? {α : Type} {p : α → Prop} [DecidablePred p] {error : α → TableError}
    {xs : List α} {x : α} (found : xs.find? (fun x => p x) = some x) :
    FirstFault (xs.map fun x => ⟨p x, error x⟩) (error x) := by
  induction xs with
  | nil => cases found
  | cons y rest ih =>
      rw [List.find?_cons] at found
      by_cases here : p y
      · simp only [here, decide_true] at found
        obtain rfl := Option.some.inj found
        exact .here here
      · simp only [here, decide_false] at found
        exact .later here (ih found)

/-- A reading that reports the first fault, or finds none and gives a result
with the property. -/
inductive Checked {α : Type} (checks : List Check) (good : α → Prop) :
    Except TableError α → Prop where
  | fault {e : TableError} : FirstFault checks e → Checked checks good (.error e)
  | passed {a : α} : (∀ check ∈ checks, ¬check.violated) → good a → Checked checks good (.ok a)

namespace Checked

variable {α : Type} {checks : List Check} {good : α → Prop} {result : Except TableError α}

theorem error_iff (h : Checked checks good result) (e : TableError) :
    result = .error e ↔ FirstFault checks e := by
  cases h with
  | fault first =>
      rw [Except.error.injEq]
      exact ⟨fun same => same ▸ first, first.unique⟩
  | passed passes =>
      have faultless : ¬FirstFault checks e := by
        intro first
        obtain ⟨check, mem, violated⟩ := (exists_firstFault_iff checks).1 ⟨e, first⟩
        exact passes check mem violated
      apply iff_of_false _ faultless
      intro same
      cases same

theorem ok_iff (h : Checked checks good result) :
    (∃ a, result = .ok a) ↔ ∀ check ∈ checks, ¬check.violated := by
  cases h with
  | fault first =>
      obtain ⟨check, mem, violated⟩ := (exists_firstFault_iff checks).1 ⟨_, first⟩
      apply iff_of_false
      · intro given
        obtain ⟨a, same⟩ := given
        cases same
      · intro passes
        exact passes check mem violated
  | passed passes => exact iff_of_true ⟨_, rfl⟩ passes

theorem after (h : Checked checks good result) {earlier : List Check}
    (passes : ∀ check ∈ earlier, ¬check.violated) : Checked (earlier ++ checks) good result := by
  cases h with
  | fault first => exact .fault (first.after passes)
  | passed ok holds => exact .passed (List.forall_mem_append.2 ⟨passes, ok⟩) holds

theorem good_of_ok (h : Checked checks good result) {a : α} (ok : result = .ok a) : good a := by
  subst ok
  cases h with
  | passed _ holds => exact holds

end Checked

end RegularLanguages
