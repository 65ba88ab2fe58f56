import RegularLanguages.Dfa.Elimination
import RegularLanguages.Proofs.Dfa.Minimize
import RegularLanguages.Proofs.Dfa.Route
import RegularLanguages.Proofs.Regex.RoundTrip

/-! # Eliminating states describes the accepted words

After the states below `k` are eliminated, the cell between two others describes
the routes between them whose inner states are below `k`, and is missing if
there are none (`Describes`).  A cell is never a choice without branches, whose
language adding a branch would lose, and it has characters only (`Tidy`). -/
set_option autoImplicit false
namespace RegularLanguages.Dfa

open Regex

variable {d : Dfa} {r new : Regex} {known : Option Regex} {branches : List Regex} {w : List Char}

/-! ## Cells -/

def meaning : Option Regex → Language Char
  | none => 0
  | some r => language r

theorem eq_none_iff_meaning : known = none ↔ ∀ w, w ∉ meaning known := by
  cases known with
  | none => exact iff_of_true rfl fun _ mem => mem
  | some r =>
      obtain ⟨w, described⟩ := language_nonempty r
      exact iff_of_false (Option.some_ne_none r) fun empty => empty w described

structure Tidy (r : Regex) : Prop where
  nonempty : spliceBranches r ≠ []
  flat : ∀ branch ∈ spliceBranches r, branch.isAlt = false
  literal : Label.any ∉ r.occurrences

theorem tidy_of_not_alt (noAlt : r.isAlt = false) (literal : Label.any ∉ r.occurrences) :
    Tidy r := by
  have single : spliceBranches r = [r] := by
    cases r with
    | alt branches => cases noAlt
    | _ => rfl
  refine ⟨single ▸ List.cons_ne_nil _ _, ?_, literal⟩
  rw [single]
  exact fun branch mem => List.mem_singleton.1 mem ▸ noAlt

theorem spliceBranches_alternation (nonempty : branches ≠ [])
    (flat : ∀ branch ∈ branches, branch.isAlt = false) :
    spliceBranches (alternation branches) = branches := by
  match branches with
  | [branch] =>
      have noAlt := flat branch List.mem_cons_self
      cases branch with
      | alt inner => cases noAlt
      | _ => rfl
  | _ :: _ :: _ => rfl

def united (existing new : Regex) : List Regex :=
  (spliceBranches new).foldl Distinct.add (spliceBranches existing)

theorem mem_united {existing branch : Regex} : branch ∈ united existing new ↔
    branch ∈ spliceBranches existing ∨ branch ∈ spliceBranches new := Distinct.mem_foldl_add

theorem united_ne_nil {existing : Regex} (nonempty : spliceBranches existing ≠ []) :
    united existing new ≠ [] := by
  obtain ⟨branch, mem⟩ := List.exists_mem_of_ne_nil _ nonempty
  exact List.ne_nil_of_mem (mem_united.2 (.inl mem))

theorem alternate_some (existing new : Regex) :
    alternate (some existing) new = alternation (united existing new) := rfl

theorem Tidy.literal_branch {branch : Regex} (tidy : Tidy r) (mem : branch ∈ spliceBranches r) :
    Label.any ∉ branch.occurrences := by
  intro leaf
  refine tidy.literal ?_
  rw [← occurrencesOf_spliceBranches]
  exact (mem_occurrencesOf _ _).2 ⟨branch, mem, leaf⟩

theorem tidy_alternate (tidy : ∀ r, known = some r → Tidy r) (other : Tidy new) :
    Tidy (alternate known new) := by
  cases known with
  | none => exact other
  | some existing =>
      have first := tidy existing rfl
      have flat : ∀ branch ∈ united existing new, branch.isAlt = false := fun branch mem =>
        (mem_united.1 mem).elim (first.flat branch) (other.flat branch)
      have more : united existing new ≠ [] := united_ne_nil first.nonempty
      rw [alternate_some]
      refine ⟨?_, ?_, ?_⟩
      · rwa [spliceBranches_alternation more flat]
      · rwa [spliceBranches_alternation more flat]
      · rw [occurrences_alternation, mem_occurrencesOf]
        rintro ⟨branch, mem, leaf⟩
        rcases mem_united.1 mem with old | added
        · exact first.literal_branch old leaf
        · exact other.literal_branch added leaf

/-- Adding a branch that is there already changes no language, so leaving
repeated ones out loses nothing. -/
theorem language_alternate (tidy : ∀ r, known = some r → Tidy r) (other : Tidy new) :
    language (alternate known new) = meaning known + language new := by
  cases known with
  | none => exact (zero_add _).symm
  | some existing =>
      have first := tidy existing rfl
      rw [alternate_some, language_alternation (united_ne_nil first.nonempty), meaning,
        language_eq_choiceLanguage first.nonempty, language_eq_choiceLanguage other.nonempty]
      ext w
      simp only [Language.mem_add, mem_choiceLanguage, mem_united, or_and_right, exists_or]

/-! ## Tables -/

namespace Grid

theorem size_ofFn (size : Nat) (f : Nat → Nat → Option Regex) : (ofFn size f).size = size :=
  Array.size_ofFn

theorem cell_ofFn (size : Nat) (f : Nat → Nat → Option Regex) (i j : Nat) :
    (ofFn size f).cell i j = if i < size ∧ j < size then f i j else none := by
  simp only [ofFn, cell, Array.getElem?_ofFn]
  by_cases row : i < size
  · by_cases column : j < size
    · simp [row, column]
    · simp [row, column]
  · simp [row]

theorem meaning_through (g : Grid) (k i j : Nat) :
    meaning (g.through k i j) =
      meaning (g.cell i k) * (KStar.kstar (meaning (g.cell k k)) * meaning (g.cell k j)) := by
  rw [through]
  cases g.cell i k with
  | none => simp [meaning]
  | some before =>
      cases g.cell k j with
      | none => cases g.cell k k <;> simp [meaning]
      | some after =>
          cases g.cell k k with
          | none => simp [meaning, concat, language, sequenceLanguage]
          | some loop => simp [meaning, concat, language, sequenceLanguage]

theorem through_eq_none {g : Grid} {k i j : Nat}
    (missing : g.cell i k = none ∨ g.cell k j = none) :
    g.through k i j = none := by
  rw [through]
  rcases missing with entry | exit
  · rw [entry]
  · rw [exit]
    cases g.cell i k <;> cases g.cell k k <;> rfl

def AllTidy (g : Grid) : Prop := ∀ i j r, g.cell i j = some r → Tidy r

theorem tidy_through {g : Grid} {k i j : Nat} (tidy : g.AllTidy)
    (path : g.through k i j = some r) : Tidy r := by
  rw [through] at path
  split at path
  next before after first _ last =>
    obtain rfl := Option.some.inj path
    refine tidy_of_not_alt rfl ?_
    simp [concat, occurrences, occurrencesOf, (tidy _ _ _ first).literal,
      (tidy _ _ _ last).literal]
  next before loop after first around last =>
    obtain rfl := Option.some.inj path
    refine tidy_of_not_alt rfl ?_
    simp [concat, occurrences, occurrencesOf, (tidy _ _ _ first).literal,
      (tidy _ _ _ around).literal, (tidy _ _ _ last).literal]
  next => cases path

theorem cell_eliminate (g : Grid) (k i j : Nat) :
    (g.eliminate k).cell i j =
      if (i < g.size ∧ j < g.size) ∧ ¬ (i = k ∨ j = k) then
        (g.through k i j).elim (g.cell i j) fun path => some (alternate (g.cell i j) path)
      else none := by
  rw [eliminate, cell_ofFn]
  by_cases inside : i < g.size ∧ j < g.size
  · by_cases gone : i = k ∨ j = k
    · rw [if_pos inside, if_pos gone, if_neg fun both => both.2 gone]
    · rw [if_pos inside, if_neg gone, if_pos ⟨inside, gone⟩]
      cases g.through k i j with
      | none => rfl
      | some path => rfl
  · rw [if_neg inside, if_neg fun both => inside both.1]

theorem allTidy_eliminate {g : Grid} (tidy : g.AllTidy) (k : Nat) : (g.eliminate k).AllTidy := by
  intro i j r found
  rw [cell_eliminate] at found
  split at found
  next =>
    cases through : g.through k i j with
    | none =>
        rw [through] at found
        exact tidy i j r found
    | some path =>
        rw [through] at found
        obtain rfl := Option.some.inj found
        exact tidy_alternate (fun r cell => tidy i j r cell) (tidy_through tidy through)
  next => cases found

theorem meaning_eliminate {g : Grid} (tidy : g.AllTidy) {k i j : Nat} (row : i < g.size)
    (column : j < g.size) (staysRow : i ≠ k) (staysColumn : j ≠ k) :
    meaning ((g.eliminate k).cell i j) = meaning (g.cell i j) + meaning (g.through k i j) := by
  rw [cell_eliminate, if_pos ⟨⟨row, column⟩, not_or.2 ⟨staysRow, staysColumn⟩⟩]
  cases through : g.through k i j with
  | none => exact (add_zero _).symm
  | some path =>
      exact language_alternate (fun r cell => tidy i j r cell) (tidy_through tidy through)

end Grid

/-! ## The table of an automaton -/

def charactersOf (edges : List Edge) : Language Char := {w | ∃ e ∈ edges, w = [e.symbol]}

theorem tidy_lit (c : Char) : Tidy (lit c) := tidy_of_not_alt rfl (by simp [occurrences])

theorem foldl_alternate (edges : List Edge) (tidy : ∀ r, known = some r → Tidy r) :
    (∀ r, edges.foldl (fun known e => some (alternate known (.lit e.symbol))) known = some r →
      Tidy r) ∧
    meaning (edges.foldl (fun known e => some (alternate known (.lit e.symbol))) known) =
      meaning known + charactersOf edges := by
  induction edges generalizing known with
  | nil =>
      refine ⟨tidy, ?_⟩
      have nothing : charactersOf [] = 0 := by
        ext w
        exact ⟨fun ⟨_, mem, _⟩ => absurd mem List.not_mem_nil, fun mem => mem.elim⟩
      rw [nothing, add_zero]
      rfl
  | cons e rest ih =>
      have next : ∀ r, some (alternate known (.lit e.symbol)) = some r → Tidy r := by
        rintro r found
        obtain rfl := Option.some.inj found
        exact tidy_alternate tidy (tidy_lit e.symbol)
      refine ⟨(ih next).1, (ih next).2.trans ?_⟩
      rw [meaning, language_alternate tidy (tidy_lit e.symbol), add_assoc]
      congr 1
      ext w
      constructor
      · rintro (rfl | ⟨other, mem, rfl⟩)
        · exact ⟨e, List.mem_cons_self, rfl⟩
        · exact ⟨other, List.mem_cons_of_mem _ mem, rfl⟩
      · rintro ⟨other, mem, rfl⟩
        rcases List.mem_cons.1 mem with rfl | mem
        · exact .inl rfl
        · exact .inr ⟨other, mem, rfl⟩

theorem tidy_directPaths {i j : Nat} (found : d.directPaths i j = some r) : Tidy r :=
  (foldl_alternate _ (fun _ found => by cases found)).1 r found

theorem mem_meaning_directPaths {i j : Nat} :
    w ∈ meaning (d.directPaths i j) ↔ ∃ c, w = [c] ∧ ⟨i, c, j⟩ ∈ d.edges := by
  rw [directPaths, (foldl_alternate _ (fun _ found => by cases found)).2, meaning, zero_add]
  simp only [charactersOf, transitions, List.mem_filter, List.mem_reverse, Bool.and_eq_true,
    beq_iff_eq]
  constructor
  · rintro ⟨e, ⟨edge, rfl, rfl⟩, rfl⟩
    exact ⟨e.symbol, rfl, edge⟩
  · rintro ⟨c, rfl, edge⟩
    exact ⟨_, ⟨edge, rfl, rfl⟩, rfl⟩

structure Describes (d : Dfa) (k : Nat) (g : Grid) : Prop where
  size : g.size = d.size + 2
  tidy : g.AllTidy
  meaning_eq : ∀ i j, k ≤ i → i < d.size + 2 → k ≤ j → j < d.size + 2 →
    meaning (g.cell i j) = routes d k i j

theorem cell_pathGrid {i j : Nat} (row : i < d.size + 2) (column : j < d.size + 2) :
    d.pathGrid.cell i j =
      if i = d.size then if j = 0 then some .epsilon else none
      else if j = d.size + 1 then if d.isAccepting i then some .epsilon else none
      else d.directPaths i j := by
  rw [pathGrid, Grid.cell_ofFn, if_pos ⟨row, column⟩]

theorem tidy_epsilon : Tidy epsilon := tidy_of_not_alt rfl (by simp [occurrences])

theorem tidy_pathGrid (d : Dfa) : d.pathGrid.AllTidy := by
  intro i j r found
  rw [pathGrid, Grid.cell_ofFn] at found
  have empty : ∀ {c : Prop} [Decidable c],
      (if c then some epsilon else none) = some r → Tidy r := by
    intro c _ found
    obtain rfl := Option.some.inj (Option.ite_none_right_eq_some.1 found).2
    exact tidy_epsilon
  split at found
  next =>
    split at found
    next => exact empty found
    next =>
      split at found
      next => exact empty found
      next => exact tidy_directPaths found
  next => cases found

theorem describes_pathGrid (ends : ∀ e ∈ d.edges, e.source < d.size ∧ e.target < d.size) :
    Describes d 0 d.pathGrid := by
  refine ⟨Grid.size_ofFn _ _, tidy_pathGrid d, fun i j _ row _ column => ?_⟩
  ext w
  have empty : ∀ {c : Prop} [Decidable c],
      w ∈ meaning (if c then some epsilon else none) ↔ w = [] ∧ c := by
    intro c _
    split
    next holds => exact ⟨fun mem => ⟨mem, holds⟩, fun both => both.1⟩
    next fails => exact ⟨fun mem => mem.elim, fun both => absurd both.2 fails⟩
  rw [cell_pathGrid row column, mem_routes_zero]
  split
  next first =>
    rw [empty, first, step_from_initial ends]
  next notFirst =>
    split
    next last =>
      rw [empty, last]
      constructor
      · rintro ⟨rfl, accepting⟩
        exact .leave accepting
      · intro s
        generalize target : d.size + 1 = t at s
        cases s with
        | edge edge => exact absurd (ends _ edge).2 (by omega)
        | enter => exact absurd target (Nat.succ_ne_zero _)
        | leave accepting => exact ⟨rfl, accepting⟩
    next notLast =>
      rw [mem_meaning_directPaths]
      constructor
      · rintro ⟨c, rfl, edge⟩
        exact .edge edge
      · intro s
        cases s with
        | edge edge => exact ⟨_, rfl, edge⟩
        | enter => exact absurd rfl notFirst
        | leave _ => exact absurd rfl notLast

theorem Describes.eliminate {g : Grid} {k : Nat} (h : Describes d k g) (lt : k < d.size) :
    Describes d (k + 1) (g.eliminate k) := by
  refine ⟨(Grid.size_ofFn _ _).trans h.size, Grid.allTidy_eliminate h.tidy k, ?_⟩
  intro i j lowI highI lowJ highJ
  have inside : k < d.size + 2 := by omega
  rw [Grid.meaning_eliminate h.tidy (h.size ▸ highI) (h.size ▸ highJ) (Nat.ne_of_gt lowI)
    (Nat.ne_of_gt lowJ), Grid.meaning_through, routes_succ,
    h.meaning_eq i j (Nat.le_of_lt lowI) highI (Nat.le_of_lt lowJ) highJ,
    h.meaning_eq i k (Nat.le_of_lt lowI) highI (Nat.le_refl k) inside,
    h.meaning_eq k k (Nat.le_refl k) inside (Nat.le_refl k) inside,
    h.meaning_eq k j (Nat.le_refl k) inside (Nat.le_of_lt lowJ) highJ]

theorem eliminated_succ (d : Dfa) (k : Nat) :
    d.eliminated (k + 1) = (d.eliminated k).eliminate k := by
  rw [eliminated, List.range_succ, List.foldl_append]
  rfl

theorem describes_eliminated (ends : ∀ e ∈ d.edges, e.source < d.size ∧ e.target < d.size)
    {k : Nat} (le : k ≤ d.size) : Describes d k (d.eliminated k) := by
  induction k with
  | zero => exact describes_pathGrid ends
  | succ k ih =>
      rw [eliminated_succ]
      exact (ih (Nat.le_of_succ_le le)).eliminate le

theorem cell_eliminated_of_lt {k i j : Nat} (gone : i < k ∨ j < k) :
    (d.eliminated k).cell i j = none := by
  induction k generalizing i j with
  | zero => omega
  | succ k ih =>
      rw [eliminated_succ, Grid.cell_eliminate]
      by_cases now : i = k ∨ j = k
      · rw [if_neg fun both => both.2 now]
      · have before : i < k ∨ j < k := by omega
        have through : (d.eliminated k).through k i j = none :=
          Grid.through_eq_none (before.imp (fun lt => ih (.inl lt)) fun lt => ih (.inr lt))
        rw [through, ih before]
        exact ite_self none

/-! ## The expression -/

theorem mem_meaning_eliminated (wf : WellFormed d) :
    w ∈ meaning ((d.eliminated d.size).cell d.size (d.size + 1)) ↔ d.accepts w = true := by
  rw [← mem_routes_iff_accepts wf, (describes_eliminated wf.ends (Nat.le_refl _)).meaning_eq _ _
    (Nat.le_refl _) (by omega) (by omega) (by omega)]

theorem toRegex?_eq_none_iff (wf : WellFormed d) :
    d.toRegex? = none ↔ ∀ w, d.accepts w = false := by
  rw [toRegex?, Option.map_eq_none_iff, eq_none_iff_meaning]
  exact forall_congr' fun w => by rw [mem_meaning_eliminated wf, Bool.not_eq_true]

/-- An expression describes the accepted words, has no `.`, and is what its text
reads as. -/
theorem describes_of_toRegex? (wf : WellFormed d) (found : d.toRegex? = some r) :
    (∀ word, word ∈ language r ↔ d.accepts word = true) ∧
      ¬ Subtree any r ∧
      Regex.parse r.render = .ok r := by
  obtain ⟨big, cell, rfl⟩ := Option.map_eq_some_iff.1 found
  have words := fun w => mem_meaning_eliminated (w := w) wf
  rw [cell] at words
  have tidy := (describes_eliminated wf.ends (Nat.le_refl _)).tidy _ _ _ cell
  refine ⟨fun word => ?_, fun wildcard => ?_, parse_render_of_isFlat (isFlat_simplify big)⟩
  · rw [language_simplify]
    exact words word
  · have reading : Label.any ≠ Label.epsilon := Label.noConfusion
    exact tidy.literal (occurrences_simplify big ((mem_occurrences_iff_subtree reading).2 wildcard))

/-- There is no expression for an automaton exactly if it accepts no word.  An
expression describes the accepted words, has no `.`, and is what its text
reads as. -/
theorem toRegex?_describes (built : Built d) :
    (d.toRegex? = none ↔ ∀ word, d.accepts word = false) ∧
      ∀ r, d.toRegex? = some r →
        (∀ word, word ∈ language r ↔ d.accepts word = true) ∧
        ¬ Subtree any r ∧
        Regex.parse r.render = .ok r :=
  have wf := built.wellFormed
  ⟨toRegex?_eq_none_iff wf, fun _ found => describes_of_toRegex? wf found⟩

theorem toRegex?_describes_fork : Built fork ∧ ∃ r, fork.toRegex? = some r ∧
    (∀ word, word ∈ language r ↔ fork.accepts word = true) ∧
    ¬ Subtree any r ∧ Regex.parse r.render = .ok r := by
  obtain ⟨empty, describes⟩ := toRegex?_describes built_fork
  cases found : fork.toRegex? with
  | none => exact absurd (empty.1 found ['a']) (by decide)
  | some r => exact ⟨built_fork, r, rfl, describes r found⟩

end RegularLanguages.Dfa
