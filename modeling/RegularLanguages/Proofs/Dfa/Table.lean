import RegularLanguages.Dfa.Spec
import RegularLanguages.Proofs.Dfa.Building

/-! # Reading a table

Going through a table finds the first fault of the list of checks, or none
(`checked_validate`).  Without one the table is `Proper`, which does not depend
on the order of its lists.  A proper table is read (`exists_ofTable`), and the
automaton has the start, the names, the accepting states and the transitions
that are listed, over the symbols of the transitions (`readFrom_ofTable`). -/
set_option autoImplicit false
namespace RegularLanguages.Dfa

variable {states : List String} {earlier rows : List Row} {row : Row} {symbols : List Char}
  {t : Table} {d m : Dfa} {e : Edge} {id : String} {c : Char} {q : Nat}

/-- The rows do not lead from one state with one symbol to different states. -/
def Compatible (row other : Row) : Prop :=
  row.source = other.source → row.symbol = other.symbol → row.target = other.target

theorem Compatible.symm {other : Row} (h : Compatible row other) : Compatible other row :=
  fun source symbol => (h source.symm symbol.symm).symm

def Unambiguous (rows : List Row) : Prop := ∀ row ∈ rows, ∀ other ∈ rows, Compatible row other

def SymbolsOf (rows : List Row) (symbols : List Char) : Prop :=
  List.Forall₂ (fun row c => row.symbol = c.toString) rows symbols

theorem eq_toString_iff {text : String} : text = c.toString ↔ text.toList = [c] := by
  constructor
  · rintro rfl
    simp
  · intro single
    apply String.toList_inj.1
    simpa using single

namespace Table

/-! ## Checks -/

theorem compatible_iff : (¬∃ e ∈ earlier, e.source = row.source ∧ e.symbol = row.symbol ∧
    e.target ≠ row.target) ↔ ∀ e ∈ earlier, Compatible e row := by
  simp [Compatible]

theorem unambiguous_nil : Unambiguous [] := by
  intro row mem
  cases mem

theorem unambiguous_append (unambiguous : Unambiguous earlier)
    (compatible : ∀ e ∈ earlier, Compatible e row) : Unambiguous (earlier ++ [row]) := by
  intro a mem b mem'
  rw [List.mem_append, List.mem_singleton] at mem mem'
  rcases mem with old | rfl
  · rcases mem' with old' | rfl
    · exact unambiguous a old b old'
    · exact compatible a old
  · rcases mem' with old' | rfl
    · exact (compatible b old').symm
    · exact fun _ _ => rfl

/-- Only the first row with the same source and symbol is compared, which is
enough as the rows before agree with each other. -/
theorem checked_checkRow (unambiguous : Unambiguous earlier) :
    Checked (rowChecks states earlier row) (fun c => row.symbol = c.toString)
      (checkRow states earlier earlier.length row) := by
  unfold rowChecks checkRow
  by_cases empty : row.source = "" ∨ row.symbol = "" ∨ row.target = ""
  · rw [if_pos empty]
    exact .fault (.here empty)
  rw [if_neg empty]
  have length : row.symbol.length = row.symbol.toList.length := String.length_toList.symm
  split
  next c single =>
    have one : row.symbol.length = 1 := by simp [length, single]
    by_cases source : row.source ∉ states
    · rw [if_pos source]
      exact .fault (.later empty (.later (not_not.2 one) (.here source)))
    rw [if_neg source]
    by_cases target : row.target ∉ states
    · rw [if_pos target]
      exact .fault (.later empty (.later (not_not.2 one) (.later source (.here target))))
    rw [if_neg target]
    split
    next unseen =>
      refine .passed ?_ (eq_toString_iff.2 single)
      simp only [List.find?_eq_none, decide_eq_true_eq] at unseen
      simp only [List.forall_mem_cons, List.not_mem_nil]
      refine ⟨empty, not_not.2 one, source, target, ?_, by simp⟩
      rintro ⟨e, mem, source, symbol, -⟩
      exact unseen e mem ⟨source, symbol⟩
    next e found =>
      have mem := List.mem_of_find?_eq_some found
      have same := List.find?_some found
      simp only [decide_eq_true_eq] at same
      by_cases agree : e.target = row.target
      · rw [if_pos agree]
        refine .passed ?_ (eq_toString_iff.2 single)
        simp only [List.forall_mem_cons, List.not_mem_nil]
        refine ⟨empty, not_not.2 one, source, target, ?_, by simp⟩
        rintro ⟨f, mem', source', symbol', differs⟩
        apply differs
        rw [← agree]
        exact unambiguous f mem' e mem (source'.trans same.1.symm) (symbol'.trans same.2.symm)
      · rw [if_neg agree]
        refine .fault (.later empty (.later (not_not.2 one) (.later source (.later target ?_))))
        exact .here ⟨e, mem, same.1, same.2, agree⟩
  next other =>
    refine .fault (.later empty (.here ?_))
    rw [length]
    intro one
    obtain ⟨c, single⟩ := List.length_eq_one_iff.1 one
    exact other c single

theorem checked_checkRows (unambiguous : Unambiguous earlier) :
    Checked (rowsChecks states earlier rows) (SymbolsOf rows)
      (checkRows states earlier earlier.length rows) := by
  induction rows generalizing earlier with
  | nil => exact .passed (by simp [rowsChecks]) .nil
  | cons row rest ih =>
      have first : Checked (rowChecks states earlier row) (fun c => row.symbol = c.toString)
          (checkRow states earlier earlier.length row) := checked_checkRow unambiguous
      unfold rowsChecks checkRows
      generalize checkRow states earlier earlier.length row = result at first
      cases first with
      | fault h => exact .fault (h.append _)
      | @passed c ok symbol =>
          -- The last check of the row is the one that looks at the rows before.
          have agree := ok _ (List.getLast_mem (by simp [rowChecks]))
          have others := ih (unambiguous_append unambiguous (compatible_iff.1 agree))
          rw [List.length_append, List.length_singleton] at others
          simp only
          generalize checkRows states (earlier ++ [row]) (earlier.length + 1) rest = result
            at others
          refine Checked.after ?_ ok
          cases others with
          | fault h => exact .fault h
          | passed ok' symbols => exact .passed ok' (.cons symbol symbols)

/-- A table is refused for its first fault, and without one its transitions
have a character each. -/
theorem checked_validate (t : Table) : Checked t.checks (SymbolsOf t.transitions) t.validate := by
  have rows : Checked (rowsChecks t.states [] t.transitions) (SymbolsOf t.transitions)
      (checkRows t.states [] 0 t.transitions) := checked_checkRows unambiguous_nil
  unfold checks validate
  rw [List.append_assoc]
  by_cases stateless : t.states = []
  · rw [if_pos stateless]
    exact .fault (.here stateless)
  rw [if_neg stateless]
  unfold checkStart
  cases start : t.start with
  | none => exact .fault (.later stateless (.here (.inl rfl)))
  | some name =>
      by_cases empty : name = ""
      · simp only [if_pos empty]
        exact .fault (.later stateless (.here (.inr (congrArg some empty))))
      have named : ¬(some name = none ∨ some name = some "") := by simp [empty]
      by_cases listed : name ∈ t.states
      · simp only [if_neg empty, if_pos listed]
        have begin : ∀ check ∈ [⟨t.states = [], .noStates⟩,
            ⟨some name = none ∨ some name = some "", .missingStart⟩,
            ⟨(some name).getD "" ∉ t.states, .unknownStart ((some name).getD "")⟩],
            ¬Check.violated check := by
          simp [stateless, empty, listed]
        refine Checked.after ?_ begin
        cases unknown : t.accepting.find? (· ∉ t.states) with
        | some state => exact .fault ((FirstFault.of_find? unknown).append _)
        | none =>
            have accepting : ∀ check ∈ t.accepting.map fun state =>
                (⟨state ∉ t.states, .unknownAccepting state⟩ : Check), ¬check.violated := by
              simpa using unknown
            simp only
            exact rows.after accepting
      · simp only [if_neg empty, if_neg listed]
        exact .fault (.later stateless (.later named (.here listed)))

/-! ## Proper tables -/

structure ProperRow (states : List String) (row : Row) : Prop where
  source_mem : row.source ∈ states
  source_ne : row.source ≠ ""
  target_mem : row.target ∈ states
  target_ne : row.target ≠ ""
  symbol : ∃ c : Char, row.symbol = c.toString

structure Proper (t : Table) : Prop where
  start : ∃ start ∈ t.states, t.start = some start ∧ start ≠ ""
  accepting : ∀ id ∈ t.accepting, id ∈ t.states
  rows : ∀ row ∈ t.transitions, ProperRow t.states row
  unambiguous : Unambiguous t.transitions

theorem length_eq_one_iff {text : String} : text.length = 1 ↔ ∃ c : Char, text = c.toString := by
  simp only [eq_toString_iff, ← String.length_toList, List.length_eq_one_iff]

theorem toString_ne_empty (c : Char) : c.toString ≠ "" := by
  intro empty
  simpa using eq_toString_iff.1 empty.symm

theorem rowChecks_pass_iff : (∀ check ∈ rowChecks states earlier row, ¬check.violated) ↔
    ProperRow states row ∧ ∀ e ∈ earlier, Compatible e row := by
  simp only [rowChecks, List.forall_mem_cons, List.not_mem_nil, not_not, not_or, compatible_iff,
    length_eq_one_iff]
  constructor
  · rintro ⟨⟨source, -, target⟩, symbol, sourceMem, targetMem, compatible, -⟩
    exact ⟨⟨sourceMem, source, targetMem, target, symbol⟩, compatible⟩
  · rintro ⟨⟨sourceMem, source, targetMem, target, c, symbol⟩, compatible⟩
    have nonempty : row.symbol ≠ "" := symbol ▸ toString_ne_empty c
    exact ⟨⟨source, nonempty, target⟩, ⟨c, symbol⟩, sourceMem, targetMem, compatible, by simp⟩

theorem rowsChecks_pass_iff (unambiguous : Unambiguous earlier) :
    (∀ check ∈ rowsChecks states earlier rows, ¬check.violated) ↔
      (∀ row ∈ rows, ProperRow states row) ∧ Unambiguous (earlier ++ rows) := by
  induction rows generalizing earlier with
  | nil => simp [rowsChecks, unambiguous]
  | cons row rest ih =>
      rw [rowsChecks, List.forall_mem_append, rowChecks_pass_iff, List.forall_mem_cons,
        List.append_cons earlier row rest]
      constructor
      · rintro ⟨⟨proper, compatible⟩, later⟩
        obtain ⟨others, whole⟩ := (ih (unambiguous_append unambiguous compatible)).1 later
        exact ⟨⟨proper, others⟩, whole⟩
      · rintro ⟨⟨proper, others⟩, whole⟩
        have compatible : ∀ e ∈ earlier, Compatible e row := by
          intro e mem
          apply whole
          · simp [mem]
          · simp
        exact ⟨⟨proper, compatible⟩, (ih (unambiguous_append unambiguous compatible)).2
          ⟨others, whole⟩⟩

/-- No check is violated exactly by a proper table, where the order of the
transitions plays no part. -/
theorem proper_iff : t.Proper ↔ ∀ check ∈ t.checks, ¬check.violated := by
  unfold checks
  rw [List.forall_mem_append, List.forall_mem_append, rowsChecks_pass_iff unambiguous_nil,
    List.nil_append]
  simp only [List.forall_mem_cons, List.not_mem_nil, List.forall_mem_map, not_not, not_or]
  constructor
  · rintro ⟨⟨start, listed, named, nonempty⟩, accepting, rows, unambiguous⟩
    refine ⟨⟨⟨List.ne_nil_of_mem listed, ?_, ?_, by simp⟩, accepting⟩, rows, unambiguous⟩
    · simp [named, nonempty]
    · simpa [named] using listed
  · rintro ⟨⟨⟨-, ⟨given, nonempty⟩, listed, -⟩, accepting⟩, rows, unambiguous⟩
    refine ⟨?_, accepting, rows, unambiguous⟩
    cases named : t.start with
    | none => exact absurd named given
    | some start =>
        rw [named] at nonempty listed
        exact ⟨start, listed, rfl, fun empty => nonempty (congrArg _ empty)⟩

theorem proper_of_validate (ok : t.validate = .ok symbols) :
    t.Proper ∧ SymbolsOf t.transitions symbols := by
  have checked := t.checked_validate
  exact ⟨proper_iff.2 (checked.ok_iff.1 ⟨symbols, ok⟩), checked.good_of_ok ok⟩

theorem exists_validate (proper : t.Proper) : ∃ symbols, t.validate = .ok symbols :=
  t.checked_validate.ok_iff.2 (proper_iff.1 proper)

end Table

/-! ## Automata -/

theorem ids_indexOf (known : id ∈ d.ids) : d.ids[d.indexOf id]? = some id := by
  obtain ⟨q, found⟩ := Option.isSome_iff_exists.1 (state?_isSome_iff.2 known)
  rw [indexOf, found, Option.getD_some]
  exact ids_of_state? found

theorem idOf_eq (d : Dfa) (q : Nat) : d.idOf q = d.ids[q]?.getD "" := by
  rw [idOf, ids, List.getElem?_map]

theorem indexOf_congr (ids : d.ids = m.ids) : d.indexOf = m.indexOf := by
  funext id
  rw [indexOf, indexOf, state?_eq, state?_eq, ids]

theorem foldl_mark (names : List String) (d : Dfa) :
    names.foldl (fun m id => m.setAccepting (m.indexOf id)) d =
      (names.map d.indexOf).foldl setAccepting d := by
  induction names generalizing d with
  | nil => rfl
  | cons id rest ih =>
      rw [List.foldl_cons, ih, indexOf_congr (ids_setAccepting d _)]
      rfl

theorem mem_symbolsOf (each : SymbolsOf rows symbols) :
    c ∈ symbols ↔ ∃ row ∈ rows, row.symbol = c.toString := by
  induction each with
  | nil => simp
  | @cons row b rest symbols symbol _ ih =>
      rw [List.mem_cons, ih, List.exists_mem_cons_iff, symbol]
      simp [eq_comm]

def edgeOfRow (states : Dfa) (row : Row) (c : Char) : Edge :=
  ⟨states.indexOf row.source, c, states.indexOf row.target⟩

theorem mem_map_edgeOfRow (states : Dfa) (each : SymbolsOf rows symbols) :
    e ∈ (rows.zip symbols).map (fun (row, c) => states.edgeOfRow row c) ↔
      ∃ row ∈ rows, ∃ c : Char, row.symbol = c.toString ∧ states.edgeOfRow row c = e := by
  induction each with
  | nil => simp
  | @cons row c rest symbols symbol _ ih =>
      have only : (∃ b : Char, row.symbol = b.toString ∧ states.edgeOfRow row b = e) ↔
          states.edgeOfRow row c = e := by
        simp [symbol]
      rw [List.zip_cons_cons, List.map_cons, List.mem_cons, ih, List.exists_mem_cons_iff, only,
        eq_comm]

structure ReadFrom (t : Table) (d : Dfa) : Prop where
  wellFormed : WellFormed d
  ids : d.ids = Distinct.ofList (t.start.getD "" :: t.states)
  accepting : ∀ id, (∃ q < d.size, d.isAccepting q = true ∧ d.idOf q = id) ↔ id ∈ t.accepting
  rows : ∀ row, (∃ e ∈ d.edges, d.row e = row) ↔ row ∈ t.transitions
  alphabet : ∀ c, c ∈ d.alphabet ↔ ∃ row ∈ t.transitions, row.symbol = c.toString

def tableStates (t : Table) (symbols : List Char) : Dfa :=
  t.states.foldl addState (new symbols (t.start.getD ""))

def tableMarked (t : Table) (symbols : List Char) : Dfa :=
  (t.accepting.map (tableStates t symbols).indexOf).foldl setAccepting (tableStates t symbols)

def tableEdges (t : Table) (symbols : List Char) : List Edge :=
  (t.transitions.zip symbols).map fun (row, c) => (tableStates t symbols).edgeOfRow row c

theorem ids_tableStates (t : Table) (symbols : List Char) :
    (tableStates t symbols).ids = Distinct.ofList (t.start.getD "" :: t.states) := by
  rw [tableStates, (foldl_addState _ _).1, Distinct.ofList_cons]
  rfl

theorem mem_ids_tableStates (listed : id ∈ t.states) : id ∈ (tableStates t symbols).ids := by
  rw [ids_tableStates, Distinct.mem_ofList]
  exact List.mem_cons_of_mem _ listed

theorem wellFormed_tableStates (t : Table) (symbols : List Char) :
    WellFormed (tableStates t symbols) :=
  (wellFormed_new symbols _).addStates t.states

theorem wellFormed_tableMarked (t : Table) (symbols : List Char) :
    WellFormed (tableMarked t symbols) := (wellFormed_tableStates t symbols).setAcceptings _

theorem ids_tableMarked (t : Table) (symbols : List Char) :
    (tableMarked t symbols).ids = (tableStates t symbols).ids := (foldl_setAccepting _ _).1

theorem edges_tableMarked (t : Table) (symbols : List Char) :
    (tableMarked t symbols).edges = [] := by
  rw [tableMarked, (foldl_setAccepting _ _).2.1]
  exact (foldl_addState _ _).2.1

theorem isAccepting_tableMarked : (tableMarked t symbols).isAccepting q = true ↔
    (∃ id ∈ t.accepting, (tableStates t symbols).indexOf id = q) ∧
      q < (tableStates t symbols).size := by
  have unmarked : (tableStates t symbols).isAccepting q = false := by
    rw [tableStates, (foldl_addState _ _).2.2.2]
    cases q <;> rfl
  rw [tableMarked, (foldl_setAccepting _ _).2.2.2, unmarked, List.mem_map]
  simp

theorem mem_tableEdges (each : SymbolsOf t.transitions symbols) : e ∈ tableEdges t symbols ↔
    ∃ row ∈ t.transitions, ∃ c : Char, row.symbol = c.toString ∧
      (tableStates t symbols).edgeOfRow row c = e := mem_map_edgeOfRow _ each

theorem ofTable_eq (ok : t.validate = .ok symbols) : ofTable t =
    match (tableMarked t symbols).addTransitions (tableEdges t symbols) with
    | .ok d => .ok d
    | .error conflict => .error (.nonDeterministic conflict.source conflict.symbol.toString) := by
  have marked : tableMarked t symbols = t.accepting.foldl
      (fun d id => d.setAccepting (d.indexOf id)) (tableStates t symbols) :=
    (foldl_mark t.accepting _).symm
  rw [ofTable, ok, marked]
  rfl

theorem ends_tableEdges (each : SymbolsOf t.transitions symbols) :
    ∀ e ∈ tableEdges t symbols,
      e.source < (tableMarked t symbols).size ∧ e.target < (tableMarked t symbols).size := by
  intro e mem
  obtain ⟨row, -, c, -, rfl⟩ := (mem_tableEdges each).1 mem
  have states := wellFormed_tableStates t symbols
  rw [← length_ids, ids_tableMarked, length_ids]
  exact ⟨indexOf_lt states row.source, indexOf_lt states row.target⟩

theorem indexOf_inj {other : String} (known : id ∈ d.ids) (known' : other ∈ d.ids)
    (same : d.indexOf id = d.indexOf other) : id = other := by
  have there := ids_indexOf known
  rw [same, ids_indexOf known'] at there
  exact (Option.some.inj there).symm

theorem exists_ofTable (proper : t.Proper) : ∃ d, ofTable t = .ok d := by
  obtain ⟨symbols, ok⟩ := Table.exists_validate proper
  obtain ⟨-, each⟩ := Table.proper_of_validate ok
  -- No edge is refused, as those with the same source and symbol are equal.
  have agree : ∀ e ∈ tableEdges t symbols, ∀ f,
      f ∈ (tableMarked t symbols).edges ∨ f ∈ tableEdges t symbols →
        e.source = f.source → e.symbol = f.symbol → e.target = f.target := by
    intro e mem f known
    rw [edges_tableMarked, or_iff_right List.not_mem_nil] at known
    obtain ⟨row, listed, c, symbol, rfl⟩ := (mem_tableEdges each).1 mem
    obtain ⟨row', listed', c', symbol', rfl⟩ := (mem_tableEdges each).1 known
    rintro sources rfl
    have source := indexOf_inj (mem_ids_tableStates (proper.rows row listed).source_mem)
      (mem_ids_tableStates (proper.rows row' listed').source_mem) sources
    have target := proper.unambiguous row listed row' listed' source (symbol.trans symbol'.symm)
    simp only [edgeOfRow, target]
  obtain ⟨d, added⟩ :=
    exists_addTransitions (wellFormed_tableMarked t symbols) (ends_tableEdges each) agree
  exact ⟨d, by rw [ofTable_eq ok, added]⟩

section ReadFrom

variable (proper : t.Proper) (each : SymbolsOf t.transitions symbols)
  (made : Extended (tableMarked t symbols) (tableEdges t symbols) d)
include made

theorem ids_of_extended : d.ids = (tableStates t symbols).ids := by
  rw [ids, made.states]
  exact ids_tableMarked t symbols

theorem idOf_of_extended (listed : id ∈ t.states) :
    d.idOf ((tableStates t symbols).indexOf id) = id := by
  rw [idOf_eq, ids_of_extended made, ids_indexOf (mem_ids_tableStates listed), Option.getD_some]

include proper

theorem row_edgeOfRow (listed : row ∈ t.transitions) (symbol : row.symbol = c.toString) :
    d.row ((tableStates t symbols).edgeOfRow row c) = row := by
  have ends := proper.rows row listed
  rw [Dfa.row, edgeOfRow, idOf_of_extended made ends.source_mem,
    idOf_of_extended made ends.target_mem, ← symbol]

theorem accepting_of_extended (id : String) :
    (∃ q < d.size, d.isAccepting q = true ∧ d.idOf q = id) ↔ id ∈ t.accepting := by
  have size : d.size = (tableStates t symbols).size := by
    rw [← length_ids, ids_of_extended made, length_ids]
  have accepting : ∀ q, d.isAccepting q = (tableMarked t symbols).isAccepting q := by
    intro q
    rw [isAccepting, made.states]
    rfl
  simp only [accepting, isAccepting_tableMarked, size]
  constructor
  · rintro ⟨q, -, ⟨⟨name, mem, rfl⟩, -⟩, rfl⟩
    rwa [idOf_of_extended made (proper.accepting name mem)]
  · intro mem
    have listed := proper.accepting id mem
    have lt := indexOf_lt (wellFormed_tableStates t symbols) id
    exact ⟨_, lt, ⟨⟨id, mem, rfl⟩, lt⟩, idOf_of_extended made listed⟩

include each

theorem rows_of_extended (row : Row) : (∃ e ∈ d.edges, d.row e = row) ↔ row ∈ t.transitions := by
  simp only [made.mem_edges, edges_tableMarked, List.not_mem_nil, false_or, mem_tableEdges each]
  constructor
  · rintro ⟨e, ⟨row, listed, c, symbol, rfl⟩, rfl⟩
    rwa [row_edgeOfRow proper made listed symbol]
  · intro listed
    obtain ⟨c, symbol⟩ := (proper.rows row listed).symbol
    exact ⟨_, ⟨row, listed, c, symbol, rfl⟩, row_edgeOfRow proper made listed symbol⟩

omit proper in
theorem alphabet_of_extended (c : Char) :
    c ∈ d.alphabet ↔ ∃ row ∈ t.transitions, row.symbol = c.toString := by
  have alphabet : (tableMarked t symbols).alphabet = OrderedSet.ofList symbols := by
    rw [tableMarked, (foldl_setAccepting _ _).2.2.1]
    exact (foldl_addState _ _).2.2.1
  rw [made.mem_alphabet, alphabet, OrderedSet.mem_ofList, mem_symbolsOf each, or_iff_left_iff_imp]
  rintro ⟨e, mem, rfl⟩
  obtain ⟨row, listed, c, symbol, rfl⟩ := (mem_tableEdges each).1 mem
  exact ⟨row, listed, symbol⟩

end ReadFrom

theorem readFrom_ofTable (read : ofTable t = .ok d) : t.Proper ∧ ReadFrom t d := by
  cases ok : t.validate with
  | error fault =>
      rw [ofTable, ok] at read
      cases read
  | ok symbols =>
      obtain ⟨proper, each⟩ := Table.proper_of_validate ok
      rw [ofTable_eq ok] at read
      split at read
      next made added =>
        obtain rfl := Except.ok.inj read
        have result := extended_addTransitions (wellFormed_tableMarked t symbols)
          (ends_tableEdges each) added
        exact ⟨proper,
          { wellFormed := result.wellFormed
            ids := (ids_of_extended result).trans (ids_tableStates t symbols)
            accepting := accepting_of_extended proper result
            rows := rows_of_extended proper each result
            alphabet := alphabet_of_extended each result }⟩
      next => cases read

end RegularLanguages.Dfa
