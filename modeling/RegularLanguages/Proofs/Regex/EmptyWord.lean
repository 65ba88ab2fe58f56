import RegularLanguages.Proofs.Regex.Simplify

/-! # The empty word

What `nullable` answers true on matches the empty word.  The converse holds of
every tree in which each choice has a branch, and so of every flat tree
(`nullable_iff`).  A choice without branches describes the empty word, yet
`nullable` answers false on it.  Simplifying leaves no such choice, and it keeps
the language, so on the simplified tree `nullable` answers for the tree as it
was. -/
set_option autoImplicit false
namespace RegularLanguages.Regex

variable {r : Regex} {items branches : List Regex}

theorem nil_mem_mul {a b : Language Char} : [] ∈ a * b ↔ [] ∈ a ∧ [] ∈ b := by
  rw [Language.mem_mul]
  constructor
  · rintro ⟨u, first, v, second, joined⟩
    obtain ⟨rfl, rfl⟩ := List.append_eq_nil_iff.1 joined
    exact ⟨first, second⟩
  · exact fun ⟨first, second⟩ => ⟨[], first, [], second, rfl⟩

theorem allNullable_iff : allNullable items = true ↔ ∀ item ∈ items, nullable item = true := by
  induction items with
  | nil => simp [allNullable]
  | cons item rest ih => rw [allNullable, Bool.and_eq_true, ih, List.forall_mem_cons]

theorem someNullable_iff :
    someNullable branches = true ↔ ∃ branch ∈ branches, nullable branch = true := by
  induction branches with
  | nil => simp [someNullable]
  | cons branch rest ih => simp [someNullable, ih]

theorem nil_mem_sequenceLanguage :
    [] ∈ sequenceLanguage items ↔ ∀ item ∈ items, [] ∈ language item := by
  induction items with
  | nil => simp [sequenceLanguage]
  | cons item rest ih => rw [sequenceLanguage, nil_mem_mul, ih, List.forall_mem_cons]

/-- Where every choice has a branch, `nullable` decides whether the empty word
matches. -/
theorem nullable_iff (branched : ¬Subtree (alt []) r) : nullable r = true ↔ [] ∈ language r := by
  refine ⟨nil_mem_language_of_nullable, fun empty => ?_⟩
  have inner : ∀ part ∈ r.parts, ¬Subtree (alt []) part :=
    fun part mem sub => branched (.inside mem sub)
  induction r with
  | epsilon => rfl
  | any =>
      obtain ⟨c, spelled⟩ := empty
      cases spelled
  | lit c => cases empty
  | cat items each =>
      rw [language, nil_mem_sequenceLanguage] at empty
      exact allNullable_iff.2 fun item mem => each item mem (inner item mem) (empty item mem)
        fun part mem' sub => inner item mem (.inside mem' sub)
  | alt branches each =>
      have nonempty : branches ≠ [] := by
        rintro rfl
        exact branched (.self _)
      rw [language, if_neg (by simpa using nonempty), mem_choiceLanguage] at empty
      obtain ⟨branch, mem, empty⟩ := empty
      exact someNullable_iff.2 ⟨branch, mem, each branch mem (inner branch mem) empty
        fun part mem' sub => inner branch mem (.inside mem' sub)⟩
  | star inner _ => rfl
  | plus operand ih =>
      have below := inner operand List.mem_cons_self
      exact ih below (nil_mem_mul.1 empty).1 fun part mem sub => below (.inside mem sub)
  | opt inner _ => rfl

theorem IsFlat.branched (flat : IsFlat r) : ¬Subtree (alt []) r := by
  intro sub
  have two : 2 ≤ ([] : List Regex).length := (flat _ sub).1
  cases two

/-- Simplifying keeps the language.  On a simplified tree `nullable` decides
whether the empty word matches, and so it does on every tree whose choices have
branches; on others it may miss the empty word. -/
theorem simplify_keeps_language (r : Regex) :
    language (simplify r) = language r ∧
      (nullable (simplify r) = true ↔ [] ∈ language r) ∧
      (nullable r = true → [] ∈ language r) ∧
      (¬Subtree (alt []) r → (nullable r = true ↔ [] ∈ language r)) := by
  have keeps := language_simplify r
  have simplified := nullable_iff (isFlat_simplify r).branched
  exact ⟨keeps, keeps ▸ simplified, nil_mem_language_of_nullable, nullable_iff⟩

theorem nullable_misses_choice_without_branches :
    nullable (alt []) = false ∧ [] ∈ language (alt []) :=
  ⟨rfl, Language.nil_mem_one⟩

end RegularLanguages.Regex
