import RegularLanguages.Regex.Derivation
import RegularLanguages.Regex.Language
import RegularLanguages.Text.Character

/-! # Texts without metacharacters

An expression whose text has no metacharacter is a sequence of characters, and
its text is its only word.  The blank characters are none of them, so an
expression with a blank text describes that text alone. -/
set_option autoImplicit false
namespace RegularLanguages.Regex

def IsPlain (text : List Char) : Prop := ∀ c ∈ text, c ∉ metacharacters

variable {r : Regex} {items : List Regex} {u v : List Char}

theorem isPlain_append : IsPlain (u ++ v) ↔ IsPlain u ∧ IsPlain v := List.forall_mem_append

theorem not_isPlain {c : Char} (mem : c ∈ u) (special : c ∈ metacharacters) : ¬IsPlain u :=
  fun plain => plain c mem special

theorem isPlain_group {needed : Bool} (plain : IsPlain (group needed u)) :
    group needed u = u := by
  cases needed with
  | false => rfl
  | true =>
      have paren : '(' ∈ group true u := by simp [group]
      exact absurd plain (not_isPlain paren (by decide))

theorem singleton_mul_singleton (u v : List Char) : ({u} : Language Char) * {v} = {u ++ v} := by
  rw [Language.mul_def]
  exact Set.image2_singleton

theorem sequenceLanguage_of_isPlain (plain : IsPlain (sequenceText items))
    (each : ∀ item ∈ items, IsPlain (text item) → language item = {text item}) :
    sequenceLanguage items = {sequenceText items} := by
  induction items with
  | nil => exact absurd plain (not_isPlain (c := '(') (by decide) (by decide))
  | cons item rest ih =>
      rw [List.forall_mem_cons] at each
      cases rest with
      | nil =>
          unfold sequenceText at plain ⊢
          have bare := isPlain_group plain
          rw [bare] at plain ⊢
          rw [sequenceLanguage, sequenceLanguage, mul_one]
          exact each.1 plain
      | cons next rest =>
          unfold sequenceText at plain ⊢
          rw [isPlain_append] at plain
          have bare := isPlain_group plain.1
          rw [bare] at plain ⊢
          rw [sequenceLanguage, each.1 plain.1, ih plain.2 each.2, singleton_mul_singleton]

/-- A text without metacharacters is the only word of its expression. -/
theorem language_of_isPlain (plain : IsPlain (text r)) : language r = {text r} := by
  induction r using induct_apply with
  | epsilon => exact absurd plain (not_isPlain (c := '(') (by decide) (by decide))
  | any => exact absurd plain (not_isPlain (c := '.') (by decide) (by decide))
  | lit c =>
      unfold text literalText at plain ⊢
      split at plain
      · exact absurd plain (not_isPlain (c := '\\') (by simp) (by decide))
      · next ordinary =>
        rw [if_neg ordinary]
        rfl
  | cat items each =>
      unfold text at plain ⊢
      exact sequenceLanguage_of_isPlain plain each
  | alt branches each =>
      unfold text at plain ⊢
      cases branches with
      | nil => exact absurd plain (not_isPlain (c := '(') (by decide) (by decide))
      | cons branch rest =>
          cases rest with
          | nil =>
              have only := each branch List.mem_cons_self plain
              simpa [language, choiceLanguage, choiceText] using only
          | cons next rest =>
              exact absurd plain (not_isPlain (c := '|') (by simp [choiceText]) (by decide))
  | repeated operator inner _ =>
      rw [text_apply] at plain
      exact absurd plain (not_isPlain (by simp) (char_mem_metacharacters operator))

theorem language_of_isBlank (blank : Text.isBlank r.render = true) (word : List Char) :
    word ∈ language r ↔ word = r.render.toList := by
  have spelled : r.render.toList = text r := String.toList_ofList
  have special : metacharacters.all (fun c => !Text.isBlankChar c) = true := by decide
  rw [List.all_eq_true] at special
  have plain : IsPlain (text r) := by
    intro c mem reserved
    unfold Text.isBlank at blank
    rw [spelled, List.all_eq_true] at blank
    have space := blank c mem
    simpa [space] using special c reserved
  rw [language_of_isPlain plain, spelled]
  rfl

end RegularLanguages.Regex
