import RegularLanguages.Proofs.Regex.Grammar
import RegularLanguages.Regex.Scan

/-! # The mistake that reading stops at is the first one

While a pattern is read, the number of groups around the innermost one and
whether that one has an item in its current branch are all that decides whether
a character is a mistake.  The scan keeps these and nothing else, so reading
stops at the mistake that the scan finds (`parseFrom_eq_error_iff`) and succeeds
where the scan finds none. -/
set_option autoImplicit false
namespace RegularLanguages.Regex

variable {position opened : Nat} {complete : Bool} {text before rest : List Char}
  {cause : ParseError} {pattern : String}

/-! ## Reading and scanning -/

theorem postfixOperator?_eq_none_iff {c : Char} :
    postfixOperator? c = none ↔ ¬(c = '*' ∨ c = '+' ∨ c = '?') := by
  rw [postfixOperator?.eq_def]
  split <;> simp_all

theorem scanFrom_other {c : Char} (noBar : c ≠ '|') (noOpen : c ≠ '(') (noClose : c ≠ ')')
    (noEnd : c = '\\' → rest ≠ []) (noEscape : ∀ d more, c = '\\' → rest ≠ d :: more) :
    scanFrom position opened complete (c :: rest) =
      if c = '*' ∨ c = '+' ∨ c = '?' then
        if complete then scanFrom (position + 1) opened true rest
        else some (.unexpected c position)
      else scanFrom (position + 1) opened true rest := by
  rw [scanFrom]
  · exact noBar
  · exact noOpen
  · exact noClose
  · exact noEnd
  · exact noEscape

theorem Group.repeatLast?_cases (g : Group) (operator : Regex → Regex) :
    (g.items.isEmpty = true ∧ g.repeatLast? operator = none) ∨
      ∃ h : Group, g.repeatLast? operator = some h ∧ g.items.isEmpty = false ∧
        h.items.isEmpty = false := by
  rw [repeatLast?]
  split
  next items => exact .inl ⟨by rw [items]; rfl, rfl⟩
  next items => exact .inr ⟨_, rfl, by rw [items]; rfl, rfl⟩

/-- Reading stops where the scan does, if the scan begins with the groups that
are open and with whether the current branch has an item. -/
theorem parseFrom_eq_error_iff (position : Nat) (inner : Group) (outer : List Group)
    (text : List Char) (cause : ParseError) :
    parseFrom position inner outer text = .error cause ↔
      scanFrom position outer.length (!inner.items.isEmpty) text = some cause := by
  fun_induction parseFrom position inner outer text with
  | case1 position inner => simp [scanFrom]
  | case2 position inner around outer => simp [scanFrom]
  | case3 position inner outer rest ih => rw [ih, scanFrom]; rfl
  | case4 position inner outer rest ih => rw [ih, scanFrom]; rfl
  | case5 position inner rest => simp [scanFrom]
  | case6 position inner rest around outer ih => rw [ih, List.length_cons, scanFrom]; rfl
  | case7 position inner outer rest ih => rw [ih, scanFrom] <;> simp [Group.push]
  | case8 position inner outer => simp [scanFrom]
  | case9 position inner outer c rest ih => rw [ih, scanFrom]; rfl
  | case10 position inner outer c rest noBar noOpen noClose noDot noEnd noEscape stands ih =>
      have ordinary := postfixOperator?_eq_none_iff.1 stands
      rw [ih, scanFrom_other noBar noOpen noClose noEnd noEscape, if_neg ordinary]
      rfl
  | case11 position inner outer c rest noBar noOpen noClose noDot noEnd noEscape operator stands
      refused =>
      have special := not_not.1 (mt postfixOperator?_eq_none_iff.2 (stands ▸ Option.some_ne_none _))
      rw [scanFrom_other noBar noOpen noClose noEnd noEscape, if_pos special]
      rcases inner.repeatLast?_cases operator with ⟨empty, -⟩ | ⟨h, repeated, -⟩
      · simp [empty]
      · cases refused.symm.trans repeated
  | case12 position inner outer c rest noBar noOpen noClose noDot noEnd noEscape operator stands
      inner' repeated ih =>
      have special := not_not.1 (mt postfixOperator?_eq_none_iff.2 (stands ▸ Option.some_ne_none _))
      rw [ih, scanFrom_other noBar noOpen noClose noEnd noEscape, if_pos special]
      rcases inner.repeatLast?_cases operator with ⟨-, refused⟩ | ⟨h, repeated', before, after⟩
      · cases refused.symm.trans repeated
      · obtain rfl := Option.some.inj (repeated'.symm.trans repeated)
        simp [before, after]

/-! ## What a mistake tells -/

theorem getElem?_of_append_cons {c : Char} (whole : before ++ c :: rest = text) :
    text[before.length]? = some c := by
  rw [← whole, List.getElem?_append_right (Nat.le_refl _), Nat.sub_self, List.getElem?_cons_zero]

theorem scanFrom_pointsInto (whole : before ++ rest = text) (begins : before.length = position)
    (found : scanFrom position opened complete rest = some cause) : cause.PointsInto text := by
  fun_induction scanFrom position opened complete rest generalizing before with
  | case1 => cases found
  | case2 position opened complete =>
      cases found
      rw [← whole, List.append_nil]
      exact ⟨begins.symm, rfl⟩
  | case3 position opened complete rest ih =>
      exact @ih (before ++ ['|']) (by simpa using whole) (by simp [begins]) found
  | case4 position opened complete rest ih =>
      exact @ih (before ++ ['(']) (by simpa using whole) (by simp [begins]) found
  | case5 position complete rest =>
      cases found
      exact begins ▸ getElem?_of_append_cons whole
  | case6 position complete rest around ih =>
      exact @ih (before ++ [')']) (by simpa using whole) (by simp [begins]) found
  | case7 position opened complete =>
      cases found
      exact ⟨begins ▸ getElem?_of_append_cons whole, by simp [← whole, begins]⟩
  | case8 position opened complete c rest ih =>
      exact @ih (before ++ ['\\', c]) (by simpa using whole) (by simp [begins]) found
  | case9 position opened c rest noBar noOpen noClose noEnd noEscape special ih =>
      exact @ih (before ++ [c]) (by simpa using whole) (by simp [begins]) found
  | case10 position opened complete c rest noBar noOpen noClose noEnd noEscape special =>
      cases found
      exact ⟨begins ▸ getElem?_of_append_cons whole, special⟩
  | case11 position opened complete c rest noBar noOpen noClose noEnd noEscape ordinary ih =>
      exact @ih (before ++ [c]) (by simpa using whole) (by simp [begins]) found

/-! ## Patterns -/

theorem parse_eq_error_iff :
    parse pattern = .error cause ↔ descend pattern = .error (.mistake cause) := by
  have same := parse_eq_descend pattern
  cases parsed : parse pattern with
  | ok r =>
      rw [parsed] at same
      cases read : descend pattern with
      | ok d => simp
      | error stop =>
          rw [read] at same
          cases same
  | error found =>
      rw [parsed] at same
      cases read : descend pattern with
      | ok d =>
          rw [read] at same
          cases same
      | error stop =>
          rw [read] at same
          cases same
          simp

/-- What is wrong with a pattern is its first mistake, whether the pattern is
read in one pass or rule by rule, and a pattern without a mistake is read.  The
mistake tells what stands at its place; in particular a group that is not closed
is reported at the end of the pattern, where nothing is found. -/
theorem parse_reports_first_mistake (pattern : String) :
    (∀ cause, parse pattern = .error cause ↔ firstMistake? pattern = some cause) ∧
      (∀ cause, descend pattern = .error (.mistake cause) ↔ firstMistake? pattern = some cause) ∧
      ((∃ r, parse pattern = .ok r) ↔ firstMistake? pattern = none) ∧
      ∀ cause, firstMistake? pattern = some cause → cause.PointsInto pattern.toList := by
  have scanned : ∀ cause, parse pattern = .error cause ↔ firstMistake? pattern = some cause :=
    parseFrom_eq_error_iff 0 .empty [] pattern.toList
  refine ⟨scanned, fun cause => parse_eq_error_iff.symm.trans (scanned cause), ?_, ?_⟩
  · rw [Option.eq_none_iff_forall_ne_some]
    simp only [ne_eq, ← scanned]
    cases parse pattern with
    | ok r => simp
    | error cause => simp
  · intro cause found
    exact scanFrom_pointsInto (List.nil_append _) rfl found

/-- An escape that ends the pattern is met before its open group is noticed. -/
example : parse "(a|\\" = .error (.incompleteEscape 3) := rfl

end RegularLanguages.Regex
