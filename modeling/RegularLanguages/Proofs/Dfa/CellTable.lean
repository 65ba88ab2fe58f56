import Mathlib.Data.List.Count
import RegularLanguages.Dfa.CellTable
import RegularLanguages.Proofs.Dfa.Elimination

/-! # The table after every elimination

A table shows a function of two numbers if this is what its cells hold
(`Shows`).  Emptying and adding are told on such functions, and so nothing is
refused and the table shows what the rows of `Grid` hold after every elimination
(`exists_cellTable?`).  The numbers of a row or a column are different, so of
what an elimination puts together at most one path comes to a cell. -/
set_option autoImplicit false
namespace RegularLanguages.Dfa

open Regex

variable {d : Dfa} {size i j k : Nat} {f : Nat → Nat → Option Regex}

def Entry.into (i j : Nat) (e : Entry) : Bool := e.source == i && e.target == j

def gathered (entries : List Entry) (known : Option Regex) : Option Regex :=
  entries.foldl (fun known e => some (alternate known e.path)) known

namespace CellTable

variable {t : CellTable}

/-! ## Cells by their places -/

theorem place_lt (row : i < t.size) (column : j < t.size) : t.place i j < t.cells.size := by
  rw [t.square, place]
  calc i * t.size + j < i * t.size + t.size := Nat.add_lt_add_left column _
    _ = (i + 1) * t.size := (Nat.succ_mul i t.size).symm
    _ ≤ t.size * t.size := Nat.mul_le_mul_right _ row

theorem place_div (column : j < t.size) : t.place i j / t.size = i := by
  rw [place, Nat.mul_comm, Nat.mul_add_div (Nat.zero_lt_of_lt column), Nat.div_eq_of_lt column,
    Nat.add_zero]

theorem place_inj {p q : Nat} (column : j < t.size) (other : q < t.size) :
    t.place i j = t.place p q ↔ p = i ∧ q = j := by
  constructor
  · intro same
    have row : p = i := by rw [← place_div (i := p) other, ← same, place_div column]
    subst row
    exact ⟨rfl, (Nat.add_left_cancel same).symm⟩
  · rintro ⟨rfl, rfl⟩
    rfl

theorem cell_eq (inside : t.place i j < t.cells.size) : t.cell i j = t.cells[t.place i j] := by
  rw [cell, Array.getElem?_eq_getElem inside, Option.join_some]

theorem cell_put {p q : Nat} (inside : t.place i j < t.cells.size) (column : j < t.size)
    (other : q < t.size) (x : Option Regex) :
    (t.put i j inside x).cell p q = if p = i ∧ q = j then x else t.cell p q := by
  change ((t.cells.set (t.place i j) x)[t.place p q]?).join = _
  rw [Array.getElem?_set]
  by_cases same : p = i ∧ q = j
  · rw [if_pos same, if_pos ((place_inj column other).2 same), Option.join_some]
  · rw [if_neg same, if_neg (mt (place_inj column other).1 same), cell]

/-! ## What a table shows -/

structure Shows (t : CellTable) (size : Nat) (f : Nat → Nat → Option Regex) : Prop where
  side : t.size = size
  cell : ∀ i j, i < size → j < size → t.cell i j = f i j

theorem Shows.congr {g : Nat → Nat → Option Regex} (h : Shows t size f)
    (same : ∀ i j, i < size → j < size → f i j = g i j) : Shows t size g :=
  ⟨h.side, fun i j row column => (h.cell i j row column).trans (same i j row column)⟩

theorem shows_blank (size : Nat) : Shows (blank size) size fun _ _ => none := by
  refine ⟨rfl, fun i j row column => ?_⟩
  rw [cell_eq (place_lt row column)]
  exact Array.getElem_replicate _

theorem Shows.put (h : Shows t size f) (column : j < size)
    (inside : t.place i j < t.cells.size) (x : Option Regex) :
    Shows (t.put i j inside x) size fun p q => if p = i ∧ q = j then x else f p q := by
  obtain rfl := h.side
  refine ⟨rfl, fun p q row other => ?_⟩
  rw [cell_put inside column other, h.cell p q row other]

theorem Shows.exists_take? (h : Shows t size f) (row : i < size) (column : j < size) :
    ∃ rest, t.take? i j = some (f i j, rest) ∧
      Shows rest size fun p q => if p = i ∧ q = j then none else f p q := by
  have inside : t.place i j < t.cells.size := place_lt (h.side ▸ row) (h.side ▸ column)
  refine ⟨_, ?_, h.put column inside none⟩
  rw [take?, dif_pos inside, ← cell_eq inside, h.cell i j row column]

theorem Shows.exists_add? {e : Entry} (h : Shows t size f) (row : e.source < size)
    (column : e.target < size) :
    ∃ more, t.add? e = some more ∧
      Shows more size fun i j => gathered ([e].filter (Entry.into i j)) (f i j) := by
  have inside : t.place e.source e.target < t.cells.size :=
    place_lt (h.side ▸ row) (h.side ▸ column)
  refine ⟨_, dif_pos inside, (h.put column inside _).congr fun i j _ _ => ?_⟩
  rw [← cell_eq inside, h.cell _ _ row column]
  by_cases here : i = e.source ∧ j = e.target
  · obtain ⟨rfl, rfl⟩ := here
    simp [Entry.into, gathered]
  · have elsewhere : Entry.into i j e = false := by
      rw [Entry.into, Bool.eq_false_iff]
      simp only [ne_eq, Bool.and_eq_true, beq_iff_eq]
      exact fun both => here ⟨both.1.symm, both.2.symm⟩
    rw [if_neg here, List.filter_singleton, elsewhere]
    rfl

theorem Shows.exists_addAll? {entries : List Entry} (h : Shows t size f)
    (inside : ∀ e ∈ entries, e.source < size ∧ e.target < size) :
    ∃ more, t.addAll? entries = some more ∧
      Shows more size fun i j => gathered (entries.filter (Entry.into i j)) (f i j) := by
  induction entries generalizing t f with
  | nil => exact ⟨t, rfl, h⟩
  | cons e rest ih =>
      have ends := inside e List.mem_cons_self
      obtain ⟨next, added, shown⟩ := h.exists_add? ends.1 ends.2
      obtain ⟨more, addedAll, shownAll⟩ := ih shown fun e mem =>
        inside e (List.mem_cons_of_mem _ mem)
      refine ⟨more, ?_, shownAll.congr fun i j _ _ => ?_⟩
      · rw [addAll?, List.foldlM_cons, added]
        exact addedAll
      · rw [gathered, gathered, ← List.foldl_append, ← List.filter_append]
        rfl

/-! ## A row or a column -/

def held (numbers : List Nat) (line : Nat → Option Regex) : List (Nat × Regex) :=
  numbers.filterMap fun q => (line q).map (q, ·)

theorem held_cons (q : Nat) (rest : List Nat) (line : Nat → Option Regex) :
    held (q :: rest) line = ((line q).map (q, ·)).toList ++ held rest line := by
  rw [held, List.filterMap_cons]
  cases line q with
  | none => rfl
  | some path => rfl

theorem held_congr {numbers : List Nat} {line other : Nat → Option Regex}
    (same : ∀ q ∈ numbers, line q = other q) : held numbers line = held numbers other :=
  List.filterMap_congr fun q mem => by rw [same q mem]

theorem held_lt (size : Nat) (line : Nat → Option Regex) :
    ∀ way ∈ held (List.range size) line, way.1 < size := by
  intro way mem
  obtain ⟨q, inside, found⟩ := List.mem_filterMap.1 mem
  obtain ⟨path, -, rfl⟩ := Option.map_eq_some_iff.1 found
  exact List.mem_range.1 inside

theorem filter_held (lt : i < size) (line : Nat → Option Regex) :
    (held (List.range size) line).filter (·.1 == i) = ((line i).map (i, ·)).toList := by
  have alone : (List.range size).filter (· == i) = [i] := by
    rw [List.filter_beq, List.count_eq_one_of_mem List.nodup_range (List.mem_range.2 lt)]
    rfl
  have first : (held (List.range size) line).filter (·.1 == i) =
      held ((List.range size).filter (· == i)) line := by
    rw [held, held, List.filter_filterMap, List.filterMap_filter]
    refine List.filterMap_congr fun q _ => ?_
    cases line q with
    | none => simp
    | some path => simp [Option.filter]
  rw [first, alone, held_cons]
  exact List.append_nil _

theorem Shows.exists_takeAll? {numbers : List Nat} {line : Nat → Nat × Nat} (h : Shows t size f)
    (apart : (numbers.map line).Nodup)
    (inside : ∀ q ∈ numbers, (line q).1 < size ∧ (line q).2 < size) :
    ∃ rest, takeAll? line numbers t =
        some (held numbers fun q => f (line q).1 (line q).2, rest) ∧
      Shows rest size fun i j => if (i, j) ∈ numbers.map line then none else f i j := by
  induction numbers generalizing t f with
  | nil => exact ⟨t, rfl, by simpa using h⟩
  | cons q others ih =>
      have ends := inside q List.mem_cons_self
      rw [List.map_cons, List.nodup_cons] at apart
      obtain ⟨next, taken, shown⟩ := h.exists_take? ends.1 ends.2
      obtain ⟨rest, takenAll, shownAll⟩ := ih shown apart.2 fun q mem =>
        inside q (List.mem_cons_of_mem _ mem)
      refine ⟨rest, ?_, shownAll.congr fun i j _ _ => ?_⟩
      · -- The first cell is not among the others, which are found as they were.
        rw [held_congr fun p mem => if_neg fun both =>
          apart.1 (List.mem_map.2 ⟨p, mem, Prod.ext both.1 both.2⟩)] at takenAll
        rw [takeAll?, taken, held_cons]
        simp only [Option.bind_eq_bind, Option.bind_some, takenAll]
        rfl
      · rw [List.map_cons]
        by_cases later : (i, j) ∈ others.map line
        · rw [if_pos later, if_pos (List.mem_cons_of_mem _ later)]
        · rw [if_neg later]
          refine if_congr ?_ rfl rfl
          rw [List.mem_cons, or_iff_left later, Prod.ext_iff]

theorem Shows.exists_takeColumn? (h : Shows t size f) (lt : k < size) :
    ∃ rest, takeAll? (·, k) (List.range size) t =
        some (held (List.range size) fun i => f i k, rest) ∧
      Shows rest size fun i j => if j = k then none else f i j := by
  have apart : ((List.range size).map (·, k)).Nodup :=
    List.nodup_range.map fun _ _ same => (Prod.ext_iff.1 same).1
  obtain ⟨rest, taken, shown⟩ := h.exists_takeAll? apart fun i mem => ⟨List.mem_range.1 mem, lt⟩
  refine ⟨rest, taken, shown.congr fun i j row _ => if_congr ?_ rfl rfl⟩
  simp [row, eq_comm]

theorem Shows.exists_takeRow? (h : Shows t size f) (lt : k < size) :
    ∃ rest, takeAll? (k, ·) (List.range size) t =
        some (held (List.range size) fun j => f k j, rest) ∧
      Shows rest size fun i j => if i = k then none else f i j := by
  have apart : ((List.range size).map (k, ·)).Nodup :=
    List.nodup_range.map fun _ _ same => (Prod.ext_iff.1 same).2
  obtain ⟨rest, taken, shown⟩ := h.exists_takeAll? apart fun j mem => ⟨lt, List.mem_range.1 mem⟩
  refine ⟨rest, taken, shown.congr fun i j _ column => if_congr ?_ rfl rfl⟩
  simp [column, eq_comm]

/-! ## Eliminating a state -/

section detours

variable {incoming outgoing : List (Nat × Regex)} (loop : Option Regex)

theorem detours_inside (first : ∀ way ∈ incoming, way.1 < size)
    (last : ∀ way ∈ outgoing, way.1 < size) :
    ∀ e ∈ detours incoming loop outgoing, e.source < size ∧ e.target < size := by
  intro e mem
  obtain ⟨before, enters, mem⟩ := List.mem_flatMap.1 mem
  obtain ⟨after, leaves, rfl⟩ := List.mem_map.1 mem
  exact ⟨first before enters, last after leaves⟩

theorem filter_detours (i j : Nat) :
    (detours incoming loop outgoing).filter (Entry.into i j) =
      detours (incoming.filter (·.1 == i)) loop (outgoing.filter (·.1 == j)) := by
  induction incoming with
  | nil => rfl
  | cons first rest ih =>
      rw [detours, List.flatMap_cons, List.filter_append, ← detours, ih, List.filter_map,
        List.filter_cons]
      by_cases here : first.1 = i
      · simp [Entry.into, Function.comp_def, here, detours]
      · simp [Entry.into, Function.comp_def, here, detours]

theorem detours_nil : detours incoming loop [] = [] := by simp [detours]

end detours

theorem gathered_detours (g : Grid) (k i j : Nat) (known : Option Regex) :
    gathered (detours ((g.cell i k).map (i, ·)).toList (g.cell k k)
        ((g.cell k j).map (j, ·)).toList) known =
      (g.through k i j).elim known fun path => some (alternate known path) := by
  rw [Grid.through]
  cases g.cell i k with
  | none => rfl
  | some before =>
      cases g.cell k j with
      | none => cases g.cell k k <;> rfl
      | some after => cases g.cell k k <;> rfl

/-- The ways that are put together do not lead into or out of the state itself,
since its own cell is emptied first. -/
theorem Shows.exists_eliminate? {g : Grid} (h : Shows t g.size g.cell) (lt : k < g.size) :
    ∃ rest, t.eliminate? k = some rest ∧ Shows rest g.size (g.eliminate k).cell := by
  obtain ⟨looped, takenLoop, shownLoop⟩ := h.exists_take? lt lt
  obtain ⟨entered, takenIn, shownIn⟩ := shownLoop.exists_takeColumn? lt
  obtain ⟨left, takenOut, shownOut⟩ := shownIn.exists_takeRow? lt
  obtain ⟨rest, added, shown⟩ := shownOut.exists_addAll?
    (detours_inside (g.cell k k) (held_lt g.size _) (held_lt g.size _))
  refine ⟨rest, ?_, shown.congr fun i j row column => ?_⟩
  · rw [eliminate?, takenLoop]
    simp only [Option.bind_eq_bind, Option.bind_some]
    rw [shownLoop.side, takenIn]
    simp only [Option.bind_some]
    rw [shownIn.side, takenOut]
    exact added
  · rw [filter_detours, filter_held row, filter_held column, Grid.cell_eliminate]
    by_cases fromHere : i = k
    · simp [fromHere, detours, gathered]
    · by_cases toHere : j = k
      · simp [fromHere, toHere, detours_nil, gathered]
      · simp [row, column, fromHere, toHere, gathered_detours]

end CellTable

/-! ## The table of an automaton -/

theorem filter_accepting (d : Dfa) (i j : Nat) :
    (d.acceptingStates.map fun q => (⟨q, d.size + 1, .epsilon⟩ : Entry)).filter (Entry.into i j) =
      if j = d.size + 1 ∧ d.isAccepting i then [⟨i, d.size + 1, .epsilon⟩] else [] := by
  rw [List.filter_map]
  by_cases last : j = d.size + 1
  · have column : (Entry.into i j ∘ fun q => ⟨q, d.size + 1, .epsilon⟩) = fun q => q == i := by
      funext q
      simp [Entry.into, last]
    have nodup : d.acceptingStates.Nodup := List.nodup_range.filter _
    rw [column, List.filter_beq]
    by_cases accepting : d.isAccepting i = true
    · have mem : i ∈ d.acceptingStates :=
        List.mem_filter.2 ⟨List.mem_range.2 (lt_of_isAccepting accepting), accepting⟩
      rw [List.count_eq_one_of_mem nodup mem, if_pos ⟨last, accepting⟩]
      rfl
    · have notMem : i ∉ d.acceptingStates := fun mem => accepting (List.mem_filter.1 mem).2
      rw [List.count_eq_zero_of_not_mem notMem, if_neg fun both => accepting both.2]
      rfl
  · rw [if_neg fun both => last both.1, List.map_eq_nil_iff, List.filter_eq_nil_iff]
    simp [Entry.into, Ne.symm last]

theorem filter_edges (d : Dfa) (i j : Nat) :
    (d.transitions.map fun e => (⟨e.source, e.target, .lit e.symbol⟩ : Entry)).filter
        (Entry.into i j) =
      (d.transitions.filter fun e => e.source == i && e.target == j).map
        fun e => ⟨e.source, e.target, .lit e.symbol⟩ := List.filter_map

theorem cellTable?_succ (d : Dfa) (k : Nat) :
    d.cellTable? (k + 1) = (d.cellTable? k).bind (·.eliminate? k) := by
  rw [cellTable?, cellTable?]
  cases (CellTable.blank (d.size + 2)).addAll? d.firstEntries with
  | none => rfl
  | some first => simp [List.range_succ]

section ends

variable (ends : ∀ e ∈ d.edges, e.source < d.size ∧ e.target < d.size)
include ends

theorem filter_transitions_outside (outside : ¬ (i < d.size ∧ j < d.size)) :
    (d.transitions.filter fun e => e.source == i && e.target == j) = [] := by
  rw [List.filter_eq_nil_iff]
  intro e mem here
  rw [Bool.and_eq_true, beq_iff_eq, beq_iff_eq] at here
  obtain ⟨rfl, rfl⟩ := here
  exact outside (ends e (List.mem_reverse.1 mem))

theorem gathered_firstEntries (i j : Nat) (row : i < d.size + 2) (column : j < d.size + 2) :
    gathered (d.firstEntries.filter (Entry.into i j)) none = d.pathGrid.cell i j := by
  rw [cell_pathGrid row column, firstEntries, List.filter_cons, List.filter_append,
    filter_accepting, filter_edges]
  by_cases initial : i = d.size
  · have rejects : d.isAccepting i = false :=
      Bool.eq_false_iff.2 fun accepting => absurd (lt_of_isAccepting accepting) (by omega)
    rw [filter_transitions_outside ends (by omega), if_pos initial]
    by_cases start : j = 0
    · simp [Entry.into, initial, start, gathered, alternate]
    · simp [Entry.into, Ne.symm start, start, rejects, gathered]
  · have first : Entry.into i j ⟨d.size, 0, .epsilon⟩ = false := by
      simp [Entry.into, Ne.symm initial]
    rw [if_neg initial, first]
    by_cases last : j = d.size + 1
    · rw [filter_transitions_outside ends (by omega), if_pos last]
      by_cases accepting : d.isAccepting i = true
      · simp [last, accepting, gathered, alternate]
      · simp [accepting, gathered]
    · rw [if_neg last, directPaths]
      simp [last, gathered, List.foldl_map]

theorem shows_firstEntries : ∃ t, (CellTable.blank (d.size + 2)).addAll? d.firstEntries = some t ∧
    t.Shows (d.size + 2) d.pathGrid.cell := by
  have inside : ∀ e ∈ d.firstEntries, e.source < d.size + 2 ∧ e.target < d.size + 2 := by
    intro e mem
    rcases List.mem_cons.1 mem with rfl | mem
    · exact ⟨by simp, by simp⟩
    · rcases List.mem_append.1 mem with accepting | edge
      · obtain ⟨q, state, rfl⟩ := List.mem_map.1 accepting
        have lt := List.mem_range.1 (List.mem_filter.1 state).1
        exact ⟨Nat.lt_add_right 2 lt, Nat.lt_add_one _⟩
      · obtain ⟨e, added, rfl⟩ := List.mem_map.1 edge
        have both := ends e (List.mem_reverse.1 added)
        exact ⟨Nat.lt_add_right 2 both.1, Nat.lt_add_right 2 both.2⟩
  obtain ⟨t, added, shown⟩ := (CellTable.shows_blank (d.size + 2)).exists_addAll? inside
  exact ⟨t, added, shown.congr (gathered_firstEntries ends)⟩

theorem exists_cellTable? {count : Nat} (le : count ≤ d.size) :
    ∃ t, d.cellTable? count = some t ∧ t.Shows (d.size + 2) (d.eliminated count).cell := by
  induction count with
  | zero =>
      obtain ⟨t, first, shown⟩ := shows_firstEntries ends
      exact ⟨t, by rw [cellTable?, first]; rfl, shown⟩
  | succ k ih =>
      obtain ⟨t, there, shown⟩ := ih (Nat.le_of_succ_le le)
      have side : (d.eliminated k).size = d.size + 2 :=
        (describes_eliminated ends (Nat.le_of_succ_le le)).size
      have inside : k < d.size + 2 := by omega
      rw [← side] at shown inside
      obtain ⟨rest, next, shownRest⟩ := shown.exists_eliminate? inside
      refine ⟨rest, ?_, ?_⟩
      · rw [cellTable?_succ, there]
        exact next
      · rw [eliminated_succ, ← side]
        exact shownRest

/-- Emptying and adding in place comes to the same expression. -/
theorem tabulated?_eq : d.tabulated? = some d.toRegex? := by
  obtain ⟨t, there, shown⟩ := exists_cellTable? ends (Nat.le_refl _)
  have row : d.size < d.size + 2 := by omega
  obtain ⟨rest, taken, -⟩ := shown.exists_take? row (Nat.lt_add_one (d.size + 1))
  rw [tabulated?, there]
  simp only [Option.bind_eq_bind, Option.bind_some, taken]
  rfl

end ends

/-! ## Cells and routes -/

/-- However many states are eliminated, none is refused, and the cells are those of
the grid.  The rows and columns of the eliminated states are empty.  Between others
a cell holds nothing exactly if no route has eliminated states alone between its
ends, and an expression in it describes what these routes spell. -/
theorem cellTable?_describes_routes
    (ends : ∀ e ∈ d.edges, e.source < d.size ∧ e.target < d.size) (le : k ≤ d.size) :
    ∃ t, d.cellTable? k = some t ∧
      (∀ i j, i < d.size + 2 → j < d.size + 2 → t.cell i j = (d.eliminated k).cell i j) ∧
      (∀ i j, i < d.size + 2 → j < d.size + 2 → i < k ∨ j < k → t.cell i j = none) ∧
      ∀ i j, k ≤ i → i < d.size + 2 → k ≤ j → j < d.size + 2 →
        (t.cell i j = none ↔ ¬ ∃ w, Route d k i w j) ∧
        ∀ r, t.cell i j = some r → ∀ w, w ∈ language r ↔ Route d k i w j := by
  obtain ⟨t, there, shown⟩ := exists_cellTable? ends le
  have described := describes_eliminated ends le
  refine ⟨t, there, shown.cell, fun i j row column gone => ?_,
    fun i j lowI row lowJ column => ?_⟩
  · rw [shown.cell i j row column, cell_eliminated_of_lt gone]
  · have meant : ∀ w, w ∈ meaning (t.cell i j) ↔ Route d k i w j := fun w => by
      rw [shown.cell i j row column, described.meaning_eq i j lowI row lowJ column]
      rfl
    refine ⟨?_, fun r found w => ?_⟩
    · rw [eq_none_iff_meaning, not_exists]
      exact forall_congr' fun w => not_congr (meant w)
    · rw [← meant w, found]
      rfl

def shuttle : Dfa where
  states := [⟨"s", false⟩, ⟨"t", true⟩]
  edges := [⟨1, 'a', 0⟩, ⟨0, 'a', 1⟩, ⟨0, 'b', 0⟩]
  alphabet := ['a', 'b']

theorem cellTable?_describes_shuttle :
    (∀ e ∈ shuttle.edges, e.source < shuttle.size ∧ e.target < shuttle.size) ∧ 1 ≤ shuttle.size ∧
      ∃ t, shuttle.cellTable? 1 = some t ∧ t.cell 1 0 = none ∧
        ∃ r, t.cell 1 1 = some r ∧ ['a', 'b', 'a'] ∈ language r := by
  have ends : ∀ e ∈ shuttle.edges, e.source < shuttle.size ∧ e.target < shuttle.size := by decide
  have le : 1 ≤ shuttle.size := by decide
  obtain ⟨t, there, -, gone, kept⟩ := cellTable?_describes_routes ends le
  refine ⟨ends, le, t, there, gone 1 0 (by decide) (by decide) (.inr (by decide)), ?_⟩
  obtain ⟨missing, describes⟩ := kept 1 1 (by decide) (by decide) (by decide) (by decide)
  have back : Route shuttle 1 0 ['a'] 1 := .step (.edge (e := ⟨0, 'a', 1⟩) (by decide))
  have around : Route shuttle 1 0 ['b', 'a'] 1 :=
    .through (u := ['b']) (.edge (e := ⟨0, 'b', 0⟩) (by decide)) (by decide) back
  have route : Route shuttle 1 1 ['a', 'b', 'a'] 1 :=
    .through (u := ['a']) (.edge (e := ⟨1, 'a', 0⟩) (by decide)) (by decide) around
  cases cell : t.cell 1 1 with
  | none => exact absurd ⟨_, route⟩ (missing.1 cell)
  | some r => exact ⟨r, rfl, (describes r cell _).2 route⟩

end RegularLanguages.Dfa
