import Mathlib.Data.Nat.Digits.Defs
import RegularLanguages.Text.Quoted
import RegularLanguages.Text.Unquoted

/-! # Quoted texts are read back

A character is written between quotes as itself, by a letter after a backslash or
by its code point.  None of the three ends the quotes or breaks the line, and each
is read back, so a quoted text is found whole wherever it stands
(`readQuoted_quoted`). -/
set_option autoImplicit false
namespace RegularLanguages.Text

variable {c : Char}

inductive Written (c : Char) : List Char → Prop where
  | letter {letter : Char} : unescaped? letter = some c → letter ≠ 'u' → letter ≠ '\n' →
      Written c ['\\', letter]
  | codePoint : Written c ('\\' :: 'u' :: '\x7b' :: Nat.toDigits 16 c.toNat ++ ['\x7d'])
  | plain : c ≠ '"' → c ≠ '\\' → c ≠ '\n' → Written c [c]

theorem escapeLetter?_eq_some {letter : Char} (found : escapeLetter? '"' c = some letter) :
    unescaped? letter = some c ∧ letter ≠ 'u' ∧ letter ≠ '\n' := by
  unfold escapeLetter? at found
  split at found
  · next quote =>
    cases found
    rw [quote]
    decide
  · split at found
    all_goals cases found
    all_goals decide

theorem escapeLetter?_eq_none (plain : escapeLetter? '"' c = none) :
    c ≠ '"' ∧ c ≠ '\\' ∧ c ≠ '\n' := by
  refine ⟨?_, ?_, ?_⟩
  all_goals
    intro eq
    subst eq
    cases plain

theorem written_quoteChar (c : Char) : Written c (quoteChar '"' c) := by
  unfold quoteChar
  split
  · next letter found =>
    obtain ⟨back, notU, notBreak⟩ := escapeLetter?_eq_some found
    exact .letter back notU notBreak
  · next unescaped =>
    split
    · exact .codePoint
    · obtain ⟨notQuote, notBackslash, notBreak⟩ := escapeLetter?_eq_none unescaped
      exact .plain notQuote notBackslash notBreak

/-! ## Hexadecimal digits -/

theorem hexDigit?_digitChar {digit : Nat} (lt : digit < 16) :
    hexDigit? (Nat.digitChar digit) = some digit := by
  revert digit
  decide

theorem digitChar_ne_of_lt {digit : Nat} (lt : digit < 16) :
    Nat.digitChar digit ≠ '"' ∧ Nat.digitChar digit ≠ '\\' ∧ Nat.digitChar digit ≠ '\n' ∧
      Nat.digitChar digit ≠ '\x7d' := by
  revert digit
  decide

theorem exists_digit_of_mem_toDigits {n : Nat} {digit : Char}
    (mem : digit ∈ Nat.toDigits 16 n) : ∃ value < 16, digit = Nat.digitChar value := by
  induction n using Nat.strong_induction_on with
  | _ n ih =>
      rw [Nat.toDigits_eq_if (by decide)] at mem
      split at mem
      · next lt =>
        exact ⟨n, lt, List.mem_singleton.1 mem⟩
      · rcases List.mem_append.1 mem with higher | last
        · exact ih (n / 16) (by omega) higher
        · exact ⟨n % 16, Nat.mod_lt n (by decide), List.mem_singleton.1 last⟩

/-! ## The end of a quoted text -/

section Until

variable {written rest body after : List Char}

theorem untilQuote_append (clear : ∀ c ∈ written, c ≠ '"' ∧ c ≠ '\\')
    (ends : untilQuote rest = some (body, after)) :
    untilQuote (written ++ rest) = some (written ++ body, after) := by
  induction written with
  | nil => exact ends
  | cons c written ih =>
      obtain ⟨⟨notQuote, notBackslash⟩, clear⟩ := List.forall_mem_cons.1 clear
      rw [List.cons_append, untilQuote, ih clear]
      · rfl
      · exact notQuote
      · intro d rest eq
        exact absurd eq notBackslash

theorem Written.untilQuote (h : Written c written)
    (ends : Text.untilQuote rest = some (body, after)) :
    Text.untilQuote (written ++ rest) = some (written ++ body, after) := by
  cases h with
  | letter => simp [Text.untilQuote, ends]
  | codePoint =>
      -- The backslash takes the `u` with it, and the rest is clear.
      have clear : ∀ d ∈ '\x7b' :: Nat.toDigits 16 c.toNat ++ ['\x7d'], d ≠ '"' ∧ d ≠ '\\' := by
        intro d mem
        rw [List.cons_append, List.mem_cons, List.mem_append, List.mem_singleton] at mem
        rcases mem with opening | digit | closing
        · subst opening
          decide
        · obtain ⟨value, lt, eq⟩ := exists_digit_of_mem_toDigits digit
          subst eq
          exact ⟨(digitChar_ne_of_lt lt).1, (digitChar_ne_of_lt lt).2.1⟩
        · subst closing
          decide
      have braces := untilQuote_append clear ends
      simp only [List.cons_append] at braces ⊢
      rw [Text.untilQuote, braces]
      rfl
  | plain notQuote notBackslash =>
      apply untilQuote_append _ ends
      intro d mem
      rw [List.mem_singleton.1 mem]
      exact ⟨notQuote, notBackslash⟩

theorem untilQuote_body (text rest : List Char) :
    untilQuote (text.flatMap (quoteChar '"') ++ '"' :: rest) =
      some (text.flatMap (quoteChar '"'), rest) := by
  induction text with
  | nil => rfl
  | cons c text ih =>
      rw [List.flatMap_cons, List.append_assoc]
      exact (written_quoteChar c).untilQuote ih

end Until

/-! ## The text between the quotes -/

section Unescape

variable {written rest text : List Char}

/-- The digits of a number continue the number that was read before them. -/
theorem unescape_toDigits (n : Nat) (rest : List Char) :
    unescape (some 0) (Nat.toDigits 16 n ++ rest) = unescape (some n) rest := by
  induction n using Nat.strong_induction_on generalizing rest with
  | _ n ih =>
      have last : ∀ higher digit, digit < 16 →
          unescape (some higher) (Nat.digitChar digit :: rest) =
            unescape (some (16 * higher + digit)) rest := by
        intro higher digit lt
        rw [unescape, if_neg (digitChar_ne_of_lt lt).2.2.2, hexDigit?_digitChar lt]
      -- All digits but the last are those of `n / 16`.
      rw [Nat.toDigits_eq_if (by decide)]
      split
      · next lt =>
        rw [List.singleton_append, last 0 n lt]
        simp
      · rw [List.append_assoc, ih (n / 16) (by omega), List.singleton_append,
          last _ _ (Nat.mod_lt n (by decide)), Nat.div_add_mod]

theorem Written.unescape (h : Written c written) (read : Text.unescape none rest = some text) :
    Text.unescape none (written ++ rest) = some (c :: text) := by
  cases h with
  | @letter letter back notU _ =>
      rw [List.cons_append, List.singleton_append, Text.unescape, back]
      · simp [read]
      · intro rest eq
        exact absurd eq notU
  | codePoint =>
      have number := unescape_toDigits c.toNat ('\x7d' :: rest)
      simp [Text.unescape, number, read]
  | plain notQuote notBackslash =>
      rw [List.singleton_append, Text.unescape, read]
      · rfl
      · intro rest eq
        exact absurd eq notBackslash
      · intro letter rest eq
        exact absurd eq notBackslash

theorem unescape_body (text : List Char) :
    unescape none (text.flatMap (quoteChar '"')) = some text := by
  induction text with
  | nil => rfl
  | cons c text ih => exact (written_quoteChar c).unescape ih

end Unescape

/-- A quoted text is read whole, whatever it says and whatever comes after it. -/
theorem readQuoted_quoted (text : String) (rest : List Char) :
    readQuoted ((quoted text).toList ++ rest) = some (text, rest) := by
  have chars : (quoted text).toList ++ rest =
      '"' :: (text.toList.flatMap (quoteChar '"') ++ '"' :: rest) := by
    simp [quoted]
  rw [chars, readQuoted, untilQuote_body]
  simp [unescape_body]

theorem Written.lineBreak_notMem {written : List Char} (h : Written c written) :
    '\n' ∉ written := by
  intro mem
  cases h with
  | letter _ _ notBreak => simp [notBreak.symm] at mem
  | codePoint =>
      have digit : '\n' ∈ Nat.toDigits 16 c.toNat := by simpa using mem
      obtain ⟨value, lt, eq⟩ := exists_digit_of_mem_toDigits digit
      exact (digitChar_ne_of_lt lt).2.2.1 eq.symm
  | plain _ _ notBreak => exact notBreak (List.mem_singleton.1 mem).symm

theorem lineBreak_notMem_quoted (text : String) : '\n' ∉ (quoted text).toList := by
  have inside : ∀ c, '\n' ∉ quoteChar '"' c := fun c => (written_quoteChar c).lineBreak_notMem
  simp [quoted, inside]

end RegularLanguages.Text
