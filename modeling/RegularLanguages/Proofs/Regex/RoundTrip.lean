import RegularLanguages.Proofs.Regex.Simplify
import RegularLanguages.Regex.Derivation
import RegularLanguages.Regex.Parser

/-! # Reading back the text of an expression

The text of every expression is a pattern.  What it is read as is told by the
tree alone: `spelled r` are the branches that the text of `r` adds to the group
it stands in, and a part in parentheses becomes one item (`parse_render`).  For a
flat tree that is the tree itself (`parse_render_of_isFlat`). -/
set_option autoImplicit false
namespace RegularLanguages.Regex

/-! ## What a text is read as -/

def together (branches : List (List Regex)) : Regex := alternation (branches.map concat)

/-- The items that a part adds to a sequence: one for a part in parentheses,
otherwise those of its only branch. -/
def contributed (grouped : Bool) (branches : List (List Regex)) : List Regex :=
  if grouped then [together branches] else branches.flatten

mutual
/-- The branches that the text of a tree is read as, each with its items. -/
def spelled : Regex → List (List Regex)
  | epsilon => [[epsilon]]
  | any => [[any]]
  | lit c => [[lit c]]
  | cat items => [spelledItems items]
  | alt branches => spelledBranches branches
  | star inner => [[star (together (spelled inner))]]
  | plus inner => [[plus (together (spelled inner))]]
  | opt inner => [[opt (together (spelled inner))]]

def spelledItems : List Regex → List Regex
  | [] => [epsilon]
  | [item] => contributed (strength item < 1) (spelled item)
  | item :: next :: rest =>
      contributed (strength item < 1) (spelled item) ++ spelledItems (next :: rest)

def spelledBranches : List Regex → List (List Regex)
  | [] => [[epsilon]]
  | [branch] => spelled branch
  | branch :: next :: rest => spelled branch ++ spelledBranches (next :: rest)
end

/-- The tree that the text of a tree is read as. -/
def reread (r : Regex) : Regex := together (spelled r)

variable {r : Regex} {items branches : List Regex}

theorem spelled_apply (operator : Repetition) (r : Regex) :
    spelled (operator.apply r) = [[operator.apply (reread r)]] := by
  cases operator <;> rfl

theorem reread_apply (operator : Repetition) (r : Regex) :
    reread (operator.apply r) = operator.apply (reread r) := by
  rw [reread, spelled_apply]
  rfl

/-- The text of a tree that binds like a repetition or stronger is one item. -/
theorem exists_spelled_eq_of_repetition (strong : 2 ≤ strength r) :
    ∃ item, spelled r = [[item]] := by
  induction r with
  | cat items each =>
      rw [strength] at strong
      match items with
      | [] => exact ⟨epsilon, rfl⟩
      | [item] =>
          obtain ⟨inner, eq⟩ := each item List.mem_cons_self strong
          refine ⟨inner, ?_⟩
          rw [spelled, spelledItems, eq, contributed, if_neg]
          · rfl
          · rw [strengthOf] at strong
            simp
            omega
      | _ :: _ :: _ => exact absurd strong (by rw [strengthOf]; omega)
  | alt branches each =>
      rw [strength] at strong
      match branches with
      | [] => exact ⟨epsilon, rfl⟩
      | [branch] => exact each branch List.mem_cons_self strong
      | _ :: _ :: _ => exact absurd strong (by rw [strengthOf]; omega)
  | _ => exact ⟨_, rfl⟩

theorem exists_spelled_eq_of_sequence (strong : 1 ≤ strength r) :
    ∃ items, spelled r = [items] := by
  induction r with
  | cat items _ => exact ⟨_, rfl⟩
  | alt branches each =>
      rw [strength] at strong
      match branches with
      | [] => exact ⟨[epsilon], rfl⟩
      | [branch] => exact each branch List.mem_cons_self strong
      | _ :: _ :: _ => exact absurd strong (by rw [strengthOf]; omega)
  | _ => exact ⟨_, rfl⟩

theorem spelled_ne_nil (r : Regex) : spelled r ≠ [] := by
  induction r with
  | alt branches each =>
      match branches with
      | [] => exact List.cons_ne_nil _ _
      | [branch] => exact each branch List.mem_cons_self
      | branch :: _ :: _ =>
          exact List.append_ne_nil_of_left_ne_nil (each branch List.mem_cons_self) _
  | _ => exact List.cons_ne_nil _ _

/-! ## Reading into a group -/

namespace Group

def pushAll (g : Group) (items : List Regex) : Group := ⟨g.branches, items.reverse ++ g.items⟩

theorem pushAll_append (g : Group) (items others : List Regex) :
    g.pushAll (items ++ others) = (g.pushAll items).pushAll others := by
  simp [pushAll]

/-- Adds branches, the first to the current one. -/
def readAll (g : Group) : List (List Regex) → Group
  | [] => g
  | [items] => g.pushAll items
  | items :: next :: rest => readAll (g.pushAll items).nextBranch (next :: rest)

theorem readAll_append {branches others : List (List Regex)} (nonempty : branches ≠ [])
    (more : others ≠ []) (g : Group) :
    g.readAll (branches ++ others) = (g.readAll branches).nextBranch.readAll others := by
  induction branches generalizing g with
  | nil => exact absurd rfl nonempty
  | cons items rest ih =>
      cases rest with
      | nil =>
          cases others with
          | nil => exact absurd rfl more
          | cons next rest => rfl
      | cons next rest => exact ih (List.cons_ne_nil next rest) _

theorem close_readAll_cons (items : List Regex) (rest : List (List Regex)) (g : Group) :
    (g.readAll (items :: rest)).close =
      alternation (g.branches.reverse ++ concat (g.items.reverse ++ items) :: rest.map concat) := by
  induction rest generalizing items g with
  | nil => simp [readAll, close, nextBranch, pushAll]
  | cons next rest ih =>
      rw [readAll, ih]
      simp [nextBranch, pushAll]

theorem close_readAll {branches : List (List Regex)} (nonempty : branches ≠ []) :
    (empty.readAll branches).close = together branches := by
  cases branches with
  | nil => exact absurd rfl nonempty
  | cons items rest => exact close_readAll_cons items rest empty

end Group

/-! ## Reading piece by piece -/

/-- Reading these characters changes the innermost group in this way, wherever
they stand and whatever follows. -/
def ReadsAs (chars : List Char) (change : Group → Group) : Prop :=
  ∀ position inner outer rest, ∃ next,
    parseFrom position inner outer (chars ++ rest) = parseFrom next (change inner) outer rest

namespace ReadsAs

variable {chars others : List Char} {change further : Group → Group}

theorem append (first : ReadsAs chars change) (second : ReadsAs others further) :
    ReadsAs (chars ++ others) fun g => further (change g) := by
  intro position inner outer rest
  obtain ⟨middle, eq⟩ := first position inner outer (others ++ rest)
  obtain ⟨next, eq'⟩ := second middle (change inner) outer rest
  exact ⟨next, by rw [List.append_assoc, eq, eq']⟩

theorem group (inside : ReadsAs chars change) :
    ReadsAs ('(' :: chars ++ [')']) (·.push (change .empty).close) := by
  intro position inner outer rest
  obtain ⟨next, eq⟩ := inside (position + 1) .empty (inner :: outer) (')' :: rest)
  refine ⟨next + 1, ?_⟩
  rw [List.append_assoc, List.cons_append, parseFrom, List.singleton_append, eq, parseFrom]

theorem bar (second : ReadsAs others further) :
    ReadsAs ('|' :: others) fun g => further g.nextBranch := by
  intro position inner outer rest
  obtain ⟨next, eq⟩ := second (position + 1) inner.nextBranch outer rest
  exact ⟨next, by rw [List.cons_append, parseFrom, eq]⟩

theorem repeated {item : Regex} (inside : ReadsAs chars (·.push item)) (operator : Repetition) :
    ReadsAs (chars ++ [operator.char]) (·.push (operator.apply item)) := by
  intro position inner outer rest
  obtain ⟨next, eq⟩ := inside position inner outer (operator.char :: rest)
  refine ⟨next + 1, ?_⟩
  rw [List.append_assoc, List.singleton_append, eq]
  cases operator <;>
    simp [Repetition.char, Repetition.apply, parseFrom, postfixOperator?, Group.repeatLast?,
      Group.push]

end ReadsAs

theorem parseFrom_plain {c : Char} (plain : c ∉ metacharacters) (position : Nat) (inner : Group)
    (outer : List Group) (rest : List Char) :
    parseFrom position inner outer (c :: rest) =
      parseFrom (position + 1) (inner.push (lit c)) outer rest := by
  simp only [metacharacters, List.mem_cons, List.not_mem_nil, or_false, not_or] at plain
  have noOperator : postfixOperator? c = none := by
    rw [postfixOperator?.eq_def]
    split <;> simp_all
  rw [parseFrom.eq_def]
  split <;> simp_all

theorem readsAs_literalText (c : Char) : ReadsAs (literalText c) (·.push (lit c)) := by
  intro position inner outer rest
  rw [literalText]
  split
  next => exact ⟨position + 2, by rw [List.cons_append, List.singleton_append, parseFrom]⟩
  next plain => exact ⟨position + 1, by rw [List.singleton_append, parseFrom_plain plain]⟩

/-! ## Reading a tree -/

theorem readsAs_part (inside : ReadsAs (text r) (·.readAll (spelled r))) :
    ReadsAs (group (strength r < 1) (text r))
      (·.pushAll (contributed (strength r < 1) (spelled r))) := by
  by_cases weak : strength r < 1
  · have one := inside.group
    rw [Group.close_readAll (spelled_ne_nil r)] at one
    simpa [group, contributed, weak, Group.pushAll, Group.push] using one
  · obtain ⟨items, eq⟩ := exists_spelled_eq_of_sequence (Nat.not_lt.1 weak)
    rw [eq] at inside ⊢
    simpa [group, contributed, weak, Group.readAll] using inside

theorem readsAs_operand (inside : ReadsAs (text r) (·.readAll (spelled r))) :
    ReadsAs (group (strength r < 2) (text r)) (·.push (together (spelled r))) := by
  by_cases weak : strength r < 2
  · have one := inside.group
    rw [Group.close_readAll (spelled_ne_nil r)] at one
    simpa [group, weak] using one
  · obtain ⟨item, eq⟩ := exists_spelled_eq_of_repetition (Nat.not_lt.1 weak)
    rw [eq] at inside ⊢
    simpa [group, weak, Group.readAll, Group.pushAll, Group.push, together, alternation, concat]
      using inside

theorem readsAs_emptyGroup : ReadsAs ['(', ')'] (·.push epsilon) :=
  fun position _ _ _ => ⟨position + 2, rfl⟩

theorem readsAs_sequenceText
    (each : ∀ item ∈ items, ReadsAs (text item) (·.readAll (spelled item))) :
    ReadsAs (sequenceText items) (·.pushAll (spelledItems items)) := by
  induction items with
  | nil => exact readsAs_emptyGroup
  | cons item rest ih =>
      have first := readsAs_part (each item List.mem_cons_self)
      cases rest with
      | nil => exact first
      | cons next rest =>
          have others := ih fun r mem => each r (List.mem_cons_of_mem item mem)
          have both := first.append others
          simp only [← Group.pushAll_append] at both
          exact both

theorem spelledBranches_ne_nil (branches : List Regex) : spelledBranches branches ≠ [] :=
  spelled_ne_nil (alt branches)

theorem readsAs_choiceText
    (each : ∀ branch ∈ branches, ReadsAs (text branch) (·.readAll (spelled branch))) :
    ReadsAs (choiceText branches) (·.readAll (spelledBranches branches)) := by
  induction branches with
  | nil => exact readsAs_emptyGroup
  | cons branch rest ih =>
      have first := each branch List.mem_cons_self
      cases rest with
      | nil => exact first
      | cons next rest =>
          have others := ih fun r mem => each r (List.mem_cons_of_mem branch mem)
          have both := first.append others.bar
          simp only [← Group.readAll_append (spelled_ne_nil branch)
            (spelledBranches_ne_nil (next :: rest))] at both
          exact both

/-- Reading the text of a tree adds its branches. -/
theorem readsAs_text (r : Regex) : ReadsAs (text r) (·.readAll (spelled r)) := by
  induction r using induct_apply with
  | epsilon => exact readsAs_emptyGroup
  | any => exact fun position _ _ _ => ⟨position + 1, rfl⟩
  | lit c => exact readsAs_literalText c
  | cat items each => exact readsAs_sequenceText each
  | alt branches each => exact readsAs_choiceText each
  | repeated operator inner ih =>
      rw [text_apply, spelled_apply]
      exact (readsAs_operand ih).repeated operator

theorem parse_render (r : Regex) : parse (render r) = .ok (reread r) := by
  obtain ⟨next, eq⟩ := readsAs_text r 0 .empty [] []
  rw [parse, render, String.toList_ofList, ← List.append_nil (text r), eq, parseFrom,
    Group.close_readAll (spelled_ne_nil r), reread]

/-! ## Flat trees -/

theorem strengthOf_of_two {own : Nat} (two : 2 ≤ items.length) : strengthOf own items = own := by
  match items with
  | _ :: _ :: _ => rw [strengthOf]

theorem concat_of_two (two : 2 ≤ items.length) : concat items = cat items := by
  match items with
  | _ :: _ :: _ => rfl

theorem alternation_of_two (two : 2 ≤ branches.length) :
    alternation branches = alt branches := by
  match branches with
  | _ :: _ :: _ => rfl

theorem strength_lt_one_iff (flat : IsFlat r) : strength r < 1 ↔ r.isAlt = true := by
  cases r with
  | cat items =>
      rw [strength, strengthOf_of_two (isFlat_cat.1 flat).1]
      simp [isAlt]
  | alt branches =>
      rw [strength, strengthOf_of_two (isFlat_alt.1 flat).1]
      simp [isAlt]
  | _ => simp [strength, isAlt]

theorem spelledItems_eq_self (nonempty : items ≠ [])
    (each : ∀ item ∈ items, contributed (strength item < 1) (spelled item) = [item]) :
    spelledItems items = items := by
  induction items with
  | nil => exact absurd rfl nonempty
  | cons item rest ih =>
      have first := each item List.mem_cons_self
      cases rest with
      | nil => exact first
      | cons next rest =>
          rw [spelledItems, first, ih (List.cons_ne_nil next rest) fun r mem =>
            each r (List.mem_cons_of_mem item mem), List.singleton_append]

theorem map_concat_spelledBranches (nonempty : branches ≠ [])
    (each : ∀ branch ∈ branches, (spelled branch).map concat = [branch]) :
    (spelledBranches branches).map concat = branches := by
  induction branches with
  | nil => exact absurd rfl nonempty
  | cons branch rest ih =>
      have first := each branch List.mem_cons_self
      cases rest with
      | nil => exact first
      | cons next rest =>
          rw [spelledBranches, List.map_append, first, ih (List.cons_ne_nil next rest) fun r mem =>
            each r (List.mem_cons_of_mem branch mem), List.singleton_append]

/-- A flat tree is read back, and as one item if it is neither a sequence nor a
choice. -/
theorem spelled_of_isFlat (flat : IsFlat r) :
    reread r = r ∧ (r.isAlt = false → r.isCat = false → spelled r = [[r]]) := by
  induction r using induct_apply with
  | epsilon => exact ⟨rfl, fun _ _ => rfl⟩
  | any => exact ⟨rfl, fun _ _ => rfl⟩
  | lit c => exact ⟨rfl, fun _ _ => rfl⟩
  | repeated operator inner ih =>
      have same := (ih ((isFlat_apply operator).1 flat)).1
      rw [reread_apply, spelled_apply, same]
      exact ⟨rfl, fun _ _ => rfl⟩
  | cat items each =>
      obtain ⟨two, all⟩ := isFlat_cat.1 flat
      have single : ∀ item ∈ items, contributed (strength item < 1) (spelled item) = [item] := by
        intro item mem
        obtain ⟨inner, noCat⟩ := all item mem
        have read := each item mem inner
        rw [contributed]
        by_cases weak : strength item < 1
        · rw [if_pos (decide_eq_true weak), ← reread, read.1]
        · have noAlt := Bool.eq_false_iff.2 (mt (strength_lt_one_iff inner).2 weak)
          rw [if_neg (by simpa using weak), read.2 noAlt noCat]
          rfl
      have nonempty : items ≠ [] := List.ne_nil_of_length_pos (by omega)
      refine ⟨?_, fun _ cat => nomatch cat⟩
      rw [reread, spelled, spelledItems_eq_self nonempty single]
      exact concat_of_two two
  | alt branches each =>
      obtain ⟨two, all⟩ := isFlat_alt.1 flat
      have single : ∀ branch ∈ branches, (spelled branch).map concat = [branch] := by
        intro branch mem
        obtain ⟨inner, noAlt⟩ := all branch mem
        have strong : 1 ≤ strength branch := Nat.not_lt.1 fun weak => by
          rw [(strength_lt_one_iff inner).1 weak] at noAlt
          cases noAlt
        obtain ⟨items, eq⟩ := exists_spelled_eq_of_sequence strong
        have same := (each branch mem inner).1
        rw [reread, eq] at same
        rw [eq]
        exact congrArg (fun r => [r]) same
      have nonempty : branches ≠ [] := List.ne_nil_of_length_pos (by omega)
      refine ⟨?_, fun alt => nomatch alt⟩
      rw [reread, spelled, together, map_concat_spelledBranches nonempty single]
      exact alternation_of_two two

theorem parse_render_of_isFlat (flat : IsFlat r) : parse (render r) = .ok r := by
  rw [parse_render, (spelled_of_isFlat flat).1]

end RegularLanguages.Regex
