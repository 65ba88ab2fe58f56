import RegularLanguages.Proofs.Regex.Grammar

/-! # Rendering and reading agree

The text of a tree is read as `reread r`.  That tree describes the same words as
`r`, whatever `r` is (`language_reread`).  Where every sequence and every choice
has two parts or more it also binds as strongly as `r` and has the same text
(`text_reread`).  A pattern is read as such a tree, so writing what a pattern is
read as gives a text that is stable from then on. -/
set_option autoImplicit false
namespace RegularLanguages.Regex

variable {r : Regex} {items branches others : List Regex} {bs : List (List Regex)}

/-! ## The language of what is read -/

theorem choiceLanguage_append (branches others : List Regex) :
    choiceLanguage (branches ++ others) = choiceLanguage branches + choiceLanguage others := by
  induction branches with
  | nil => exact (zero_add _).symm
  | cons branch rest ih => rw [List.cons_append, choiceLanguage, choiceLanguage, ih, add_assoc]

theorem language_together (nonempty : bs ≠ []) :
    language (together bs) = choiceLanguage (bs.map concat) :=
  language_alternation (mt List.map_eq_nil_iff.1 nonempty)

theorem sequenceLanguage_contributed (keeps : language (reread r) = language r) :
    sequenceLanguage (contributed (strength r < 1) (spelled r)) = language r := by
  by_cases weak : strength r < 1
  · rw [contributed, if_pos (decide_eq_true weak), sequenceLanguage, sequenceLanguage, mul_one]
    exact keeps
  · obtain ⟨items, eq⟩ := exists_spelled_eq_of_sequence (Nat.not_lt.1 weak)
    rw [reread, eq] at keeps
    rw [contributed, if_neg (by simpa using weak), eq, List.flatten_singleton, ← language_concat]
    exact keeps

theorem sequenceLanguage_spelledItems
    (keeps : ∀ item ∈ items, language (reread item) = language item) :
    sequenceLanguage (spelledItems items) = sequenceLanguage items := by
  induction items with
  | nil => exact mul_one 1
  | cons item rest ih =>
      have first := sequenceLanguage_contributed (keeps item List.mem_cons_self)
      cases rest with
      | nil => rw [spelledItems, first, sequenceLanguage, sequenceLanguage, mul_one]
      | cons next rest =>
          rw [spelledItems, sequenceLanguage_append, first,
            ih fun r mem => keeps r (List.mem_cons_of_mem item mem)]
          rfl

theorem choiceLanguage_spelledBranches (nonempty : branches ≠ [])
    (keeps : ∀ branch ∈ branches, language (reread branch) = language branch) :
    choiceLanguage ((spelledBranches branches).map concat) = choiceLanguage branches := by
  induction branches with
  | nil => exact absurd rfl nonempty
  | cons branch rest ih =>
      have first := keeps branch List.mem_cons_self
      rw [reread, language_together (spelled_ne_nil branch)] at first
      cases rest with
      | nil => exact first.trans (add_zero _).symm
      | cons next rest =>
          rw [spelledBranches, List.map_append, choiceLanguage_append, first,
            ih (List.cons_ne_nil next rest) fun r mem => keeps r (List.mem_cons_of_mem branch mem)]
          rfl

theorem language_reread (r : Regex) : language (reread r) = language r := by
  induction r using induct_apply with
  | epsilon => rfl
  | any => rfl
  | lit c => rfl
  | cat items each =>
      have one : reread (cat items) = concat (spelledItems items) := rfl
      rw [one, language_concat, sequenceLanguage_spelledItems each, language]
  | alt branches each =>
      by_cases empty : branches = []
      · subst empty
        rfl
      · rw [reread, language_together (spelled_ne_nil _), spelled,
          choiceLanguage_spelledBranches empty each, language, if_neg (by simpa using empty)]
  | repeated operator inner ih => exact reread_apply operator inner ▸ language_apply_congr operator ih

/-! ## Trees whose nodes join two parts or more -/

def FullNode : Regex → Prop
  | cat items => 2 ≤ items.length
  | alt branches => 2 ≤ branches.length
  | _ => True

def IsFull (r : Regex) : Prop := ∀ s, Subtree s r → FullNode s

theorem isFull_iff : IsFull r ↔ FullNode r ∧ ∀ part ∈ r.parts, IsFull part :=
  forall_subtree_iff

theorem IsFull.part {s : Regex} (full : IsFull r) (mem : s ∈ r.parts) : IsFull s :=
  (isFull_iff.1 full).2 s mem

theorem isFull_leaf (node : FullNode r) (leaf : r.parts = []) : IsFull r :=
  isFull_iff.2 ⟨node, fun _ mem => absurd (leaf ▸ mem) List.not_mem_nil⟩

theorem isFull_concat (all : ∀ item ∈ items, IsFull item) : IsFull (concat items) := by
  match items with
  | [] => exact isFull_leaf trivial rfl
  | [item] => exact all item List.mem_cons_self
  | first :: second :: rest => exact isFull_iff.2 ⟨Nat.le_add_left 2 rest.length, all⟩

theorem isFull_alternation (all : ∀ branch ∈ branches, IsFull branch) :
    IsFull (alternation branches) := by
  match branches with
  | [] => exact isFull_leaf trivial rfl
  | [branch] => exact all branch List.mem_cons_self
  | first :: second :: rest => exact isFull_iff.2 ⟨Nat.le_add_left 2 rest.length, all⟩

theorem isFull_apply (operator : Repetition) (full : IsFull r) : IsFull (operator.apply r) := by
  rw [isFull_iff, parts_apply, List.forall_mem_singleton]
  cases operator <;> exact ⟨trivial, full⟩

/-! ### What the grammar derives -/

mutual
theorem isFull_branches (d : ExprDerivation) : ∀ branch ∈ d.branches, IsFull branch := by
  cases d with
  | single term => exact List.forall_mem_singleton.2 (isFull_concat (isFull_items term))
  | choice term others =>
      exact List.forall_mem_cons.2 ⟨isFull_concat (isFull_items term), isFull_branches others⟩

theorem isFull_items (t : TermDerivation) : ∀ item ∈ t.items, IsFull item := by
  cases t with
  | empty => exact fun _ mem => absurd mem List.not_mem_nil
  | cons factor rest =>
      exact List.forall_mem_cons.2 ⟨isFull_factor factor, isFull_items rest⟩

theorem isFull_factor (f : FactorDerivation) : IsFull f.tree := by
  cases f with
  | atom a => exact isFull_atom a
  | repeated factor operator => exact isFull_apply operator (isFull_factor factor)

theorem isFull_atom (a : AtomDerivation) : IsFull a.tree := by
  cases a with
  | literal c plain => exact isFull_leaf trivial rfl
  | any => exact isFull_leaf trivial rfl
  | group inside => exact isFull_alternation (isFull_branches inside)
  | escaped c => exact isFull_leaf trivial rfl
end

theorem isFull_of_parse {pattern : String} (ok : parse pattern = .ok r) : IsFull r := by
  obtain ⟨d, -, rfl⟩ := parse_eq_ok_iff.1 ok
  exact isFull_alternation (isFull_branches d)

/-! ## The text of what is read -/

theorem sequenceText_append (nonempty : items ≠ []) (more : others ≠ []) :
    sequenceText (items ++ others) = sequenceText items ++ sequenceText others := by
  induction items with
  | nil => exact absurd rfl nonempty
  | cons item rest ih =>
      cases rest with
      | nil =>
          obtain ⟨next, after, rfl⟩ := List.exists_cons_of_ne_nil more
          rfl
      | cons next rest =>
          have tail := ih (List.cons_ne_nil next rest)
          rw [List.cons_append] at tail
          rw [List.cons_append, List.cons_append, sequenceText, sequenceText, tail,
            List.append_assoc]

theorem choiceText_append (nonempty : branches ≠ []) (more : others ≠ []) :
    choiceText (branches ++ others) = choiceText branches ++ '|' :: choiceText others := by
  induction branches with
  | nil => exact absurd rfl nonempty
  | cons branch rest ih =>
      cases rest with
      | nil =>
          obtain ⟨next, after, rfl⟩ := List.exists_cons_of_ne_nil more
          rfl
      | cons next rest =>
          have tail := ih (List.cons_ne_nil next rest)
          rw [List.cons_append] at tail
          rw [List.cons_append, List.cons_append, choiceText, choiceText, tail,
            List.append_assoc]
          rfl

theorem text_concat (strong : 1 ≤ strength (concat items)) :
    text (concat items) = sequenceText items := by
  match items with
  | [] => rfl
  | [item] =>
      have noGroup : ¬strength item < 1 := Nat.not_lt.2 strong
      rw [sequenceText, group, if_neg (by simpa using noGroup)]
      rfl
  | _ :: _ :: _ => rfl

theorem text_together (nonempty : bs ≠ []) : text (together bs) = choiceText (bs.map concat) := by
  match bs with
  | [_] => rfl
  | _ :: _ :: _ => rfl

theorem contributed_ne_nil {grouped : Bool} (nonempty : bs ≠ []) (each : ∀ items ∈ bs, items ≠ []) :
    contributed grouped bs ≠ [] := by
  obtain ⟨items, rest, rfl⟩ := List.exists_cons_of_ne_nil nonempty
  rw [contributed]
  split
  · exact List.cons_ne_nil _ _
  · exact List.append_ne_nil_of_left_ne_nil (each items List.mem_cons_self) _

theorem ne_nil_of_mem_spelled (r : Regex) : ∀ items ∈ spelled r, items ≠ [] := by
  have single : ∀ item : Regex, ∀ items ∈ [[item]], items ≠ [] :=
    fun item items mem => List.mem_singleton.1 mem ▸ List.cons_ne_nil item []
  induction r with
  | cat items each =>
      refine List.forall_mem_singleton.2 ?_
      match items with
      | [] => exact List.cons_ne_nil _ _
      | [item] => exact contributed_ne_nil (spelled_ne_nil item) (each item List.mem_cons_self)
      | item :: _ :: _ =>
          exact List.append_ne_nil_of_left_ne_nil
            (contributed_ne_nil (spelled_ne_nil item) (each item List.mem_cons_self)) _
  | alt branches each =>
      rw [spelled]
      induction branches with
      | nil => exact single epsilon
      | cons branch rest ih =>
          have first := each branch List.mem_cons_self
          cases rest with
          | nil => exact first
          | cons next rest =>
              exact List.forall_mem_append.2
                ⟨first, ih fun r mem => each r (List.mem_cons_of_mem branch mem)⟩
  | _ => exact single _

theorem length_le_length_spelledItems (items : List Regex) :
    items.length ≤ (spelledItems items).length := by
  have pos : ∀ r : Regex, 0 < (contributed (strength r < 1) (spelled r)).length := fun r =>
    List.length_pos_iff.2 (contributed_ne_nil (spelled_ne_nil r) (ne_nil_of_mem_spelled r))
  induction items with
  | nil => exact Nat.zero_le _
  | cons item rest ih =>
      have first := pos item
      cases rest with
      | nil => exact first
      | cons next rest =>
          rw [spelledItems, List.length_append, List.length_cons]
          omega

theorem length_le_length_spelledBranches (branches : List Regex) :
    branches.length ≤ (spelledBranches branches).length := by
  induction branches with
  | nil => exact Nat.zero_le _
  | cons branch rest ih =>
      have first := List.length_pos_iff.2 (spelled_ne_nil branch)
      cases rest with
      | nil => exact first
      | cons next rest =>
          rw [spelledBranches, List.length_append, List.length_cons]
          omega

/-- What is read as `s` is written as `r` is, and binds as strongly. -/
def WrittenAlike (s r : Regex) : Prop := text s = text r ∧ strength s = strength r

theorem sequenceText_contributed (alike : WrittenAlike (reread r) r) :
    sequenceText (contributed (strength r < 1) (spelled r)) =
      group (strength r < 1) (text r) := by
  by_cases weak : strength r < 1
  · rw [contributed, if_pos (decide_eq_true weak), sequenceText, ← reread, alike.1, alike.2]
  · have strong := Nat.not_lt.1 weak
    obtain ⟨items, eq⟩ := exists_spelled_eq_of_sequence strong
    have one : reread r = concat items := by
      rw [reread, eq]
      rfl
    rw [one] at alike
    rw [contributed, if_neg (by simpa using weak), eq, List.flatten_singleton, group,
      if_neg (by simpa using weak), ← text_concat (alike.2 ▸ strong), alike.1]

theorem sequenceText_spelledItems (alike : ∀ item ∈ items, WrittenAlike (reread item) item) :
    sequenceText (spelledItems items) = sequenceText items := by
  induction items with
  | nil => rfl
  | cons item rest ih =>
      have first := sequenceText_contributed (alike item List.mem_cons_self)
      cases rest with
      | nil => exact first
      | cons next rest =>
          have there : contributed (strength item < 1) (spelled item) ≠ [] :=
            contributed_ne_nil (spelled_ne_nil item) (ne_nil_of_mem_spelled item)
          have more : spelledItems (next :: rest) ≠ [] := List.ne_nil_of_length_pos
            (Nat.lt_of_lt_of_le (Nat.succ_pos _) (length_le_length_spelledItems (next :: rest)))
          rw [spelledItems, sequenceText_append there more, first,
            ih fun r mem => alike r (List.mem_cons_of_mem item mem), sequenceText]

theorem choiceText_spelledBranches
    (alike : ∀ branch ∈ branches, WrittenAlike (reread branch) branch) :
    choiceText ((spelledBranches branches).map concat) = choiceText branches := by
  induction branches with
  | nil => rfl
  | cons branch rest ih =>
      have first := (alike branch List.mem_cons_self).1
      rw [reread, text_together (spelled_ne_nil branch)] at first
      cases rest with
      | nil => exact first
      | cons next rest =>
          have there : (spelled branch).map concat ≠ [] :=
            mt List.map_eq_nil_iff.1 (spelled_ne_nil branch)
          have more : (spelledBranches (next :: rest)).map concat ≠ [] :=
            mt List.map_eq_nil_iff.1 (spelledBranches_ne_nil (next :: rest))
          rw [spelledBranches, List.map_append, choiceText_append there more, first,
            ih fun r mem => alike r (List.mem_cons_of_mem branch mem), choiceText]

theorem text_reread (full : IsFull r) : WrittenAlike (reread r) r := by
  induction r using induct_apply with
  | epsilon => exact ⟨rfl, rfl⟩
  | any => exact ⟨rfl, rfl⟩
  | lit c => exact ⟨rfl, rfl⟩
  | cat items each =>
      have two : 2 ≤ items.length := (isFull_iff.1 full).1
      have joined : reread (cat items) = cat (spelledItems items) :=
        concat_of_two (Nat.le_trans two (length_le_length_spelledItems items))
      rw [joined]
      refine ⟨sequenceText_spelledItems fun item mem => each item mem (full.part mem), ?_⟩
      rw [strength, strength, strengthOf_of_two two,
        strengthOf_of_two (Nat.le_trans two (length_le_length_spelledItems items))]
  | alt branches each =>
      have two : 2 ≤ branches.length := (isFull_iff.1 full).1
      have more : 2 ≤ ((spelledBranches branches).map concat).length := by
        rw [List.length_map]
        exact Nat.le_trans two (length_le_length_spelledBranches branches)
      have joined : reread (alt branches) = alt ((spelledBranches branches).map concat) :=
        alternation_of_two more
      rw [joined]
      refine ⟨choiceText_spelledBranches fun branch mem => each branch mem (full.part mem), ?_⟩
      rw [strength, strength, strengthOf_of_two two, strengthOf_of_two more]
  | repeated operator inner ih =>
      obtain ⟨sameText, sameStrength⟩ := ih (full.part (by simp))
      rw [reread_apply]
      refine ⟨?_, (strength_apply _ _).trans (strength_apply _ _).symm⟩
      rw [text_apply, text_apply, sameText, sameStrength]

/-! ## Rendering and reading -/

/-- The text of every tree is a pattern for the same words.  A flat tree is read
back, and what a pattern is read as has a text that reading and writing again
does not change. -/
theorem render_agrees_with_parse (r : Regex) :
    ∃ s, parse (render r) = .ok s ∧ language s = language r ∧ (IsFlat r → s = r) ∧
      ∀ pattern, parse pattern = .ok r → render s = render r := by
  refine ⟨reread r, parse_render r, language_reread r, fun flat => (spelled_of_isFlat flat).1, ?_⟩
  intro pattern ok
  exact congrArg String.ofList (text_reread (isFull_of_parse ok)).1

def nested : Regex := cat [cat [lit 'a', lit 'b'], lit 'c']

theorem render_agrees_with_parse_nested :
    parse "(ab)c" = .ok nested ∧ ¬IsFlat nested ∧ ∃ s, parse (render nested) = .ok s ∧
      s ≠ nested ∧ language s = language nested ∧ render s = render nested := by
  have ok : parse "(ab)c" = .ok nested := by rfl
  have read : parse (render nested) = .ok (cat [lit 'a', lit 'b', lit 'c']) := by rfl
  obtain ⟨s, found, same, -, stable⟩ := render_agrees_with_parse nested
  obtain rfl := Except.ok.inj (read.symm.trans found)
  refine ⟨ok, fun flat => ?_, _, found, by decide, same, stable _ ok⟩
  exact Bool.noConfusion ((isFlat_cat.1 flat).2 _ List.mem_cons_self).2

end RegularLanguages.Regex
