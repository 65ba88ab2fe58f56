import RegularLanguages.Language.Compare

/-! # What a comparison looks at

The words of a length are those whose characters are all in the alphabet
(`mem_wordsOfLength`).  Looking for a word goes through every length up to the
bound, so two recognizers count as the same exactly if they agree on the words up
to that length over the characters of both (`sameLanguage_iff`). -/
set_option autoImplicit false
namespace RegularLanguages

variable {alphabet word : List Char} {maxLength : Nat}

theorem mem_wordsOfLength {length : Nat} :
    word ∈ wordsOfLength alphabet length ↔ word.length = length ∧ ∀ c ∈ word, c ∈ alphabet := by
  induction length generalizing word with
  | zero =>
      cases word with
      | nil => simp [wordsOfLength]
      | cons c rest => simp [wordsOfLength]
  | succ length ih =>
      cases word with
      | nil => simp [wordsOfLength]
      | cons c rest =>
          simp only [wordsOfLength, List.mem_flatMap, List.mem_map, List.cons.injEq,
            List.length_cons, Nat.add_right_cancel_iff, List.forall_mem_cons, ih]
          constructor
          · intro ⟨d, known, tail, allowed, first, others⟩
            subst first
            subst others
            exact ⟨allowed.1, known, allowed.2⟩
          · intro ⟨long, known, allowed⟩
            exact ⟨c, known, rest, ⟨long, allowed⟩, rfl, rfl⟩

theorem findWord?_eq_none_iff {p : List Char → Bool} :
    findWord? alphabet maxLength p = none ↔
      ∀ word, word.length ≤ maxLength → (∀ c ∈ word, c ∈ alphabet) → p word = false := by
  simp only [findWord?, List.findSome?_eq_none_iff, List.mem_range, List.find?_eq_none,
    mem_wordsOfLength, Bool.not_eq_true]
  constructor
  · intro rejects word short allowed
    exact rejects word.length (Nat.lt_succ_of_le short) word ⟨rfl, allowed⟩
  · intro rejects length short word ⟨long, allowed⟩
    apply rejects word _ allowed
    omega

namespace Recognizer

variable {a b : Recognizer}

theorem mem_jointAlphabet {c : Char} :
    c ∈ a.jointAlphabet b ↔ c ∈ a.alphabet ∨ c ∈ b.alphabet := by
  rw [jointAlphabet, OrderedSet.mem_ofList, List.mem_append]

theorem sameLanguage_iff :
    a.sameLanguage b maxLength = true ↔
      ∀ word, word.length ≤ maxLength → (∀ c ∈ word, c ∈ a.jointAlphabet b) →
        a.accepts word = b.accepts word := by
  rw [sameLanguage, findDifference, Option.isNone_iff_eq_none, findWord?_eq_none_iff]
  simp only [bne_eq_false_iff_eq]

end Recognizer

end RegularLanguages
