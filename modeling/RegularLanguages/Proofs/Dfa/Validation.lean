import RegularLanguages.Proofs.Dfa.Operation
import RegularLanguages.Proofs.Dfa.Reading

/-! # Tables are read or refused for their first fault

Reading a table reports the first check that fails, and gives an automaton if none
does (`checked_ofTable`).  The automaton that is made through an index of names
is refused for the same faults and no others: in a table that passes the checks
no transition conflicts with one before, and every name has a state
(`ofTable_indexed`).  Both the table and the automaton that is read accept what
the transitions spell from the start to an accepting state. -/
set_option autoImplicit false
namespace RegularLanguages.Dfa

variable {t : Table} {d : Dfa} {word : List Char}

/-- The transitions spell the word from the start to an accepting state. -/
def Table.Accepts (t : Table) (word : List Char) : Prop :=
  ∃ state ∈ t.accepting, Row.Path readsLiterally t.transitions (t.start.getD "") word state

namespace ReadFrom

theorem mem_transitions (h : ReadFrom t d) {row : Row} :
    row ∈ d.document.transitions ↔ row ∈ t.transitions :=
  mem_transitions_document.trans (h.rows row)

theorem accepts_iff (h : ReadFrom t d) : d.accepts word = true ↔ t.Accepts word := by
  rw [← accepts_document h.wellFormed]
  have start : d.document.start = t.start.getD "" := start_ids h
  constructor
  · intro accepted
    obtain ⟨state, marked, path⟩ := accepted
    rw [start] at path
    exact ⟨state, (h.accepting state).1 (mem_accepting_document.1 marked),
      path.mono fun _ => h.mem_transitions.1⟩
  · intro accepted
    obtain ⟨state, marked, path⟩ := accepted
    refine ⟨state, mem_accepting_document.2 ((h.accepting state).2 marked), ?_⟩
    rw [start]
    exact path.mono fun _ => h.mem_transitions.2

end ReadFrom

theorem checked_ofTable (t : Table) : Checked t.checks (ReadFrom t) (ofTable t) := by
  have checked := t.checked_validate
  cases ok : t.validate with
  | error e =>
      rw [ofTable, ok]
      exact .fault ((checked.error_iff e).1 ok)
  | ok symbols =>
      -- The checks are enough for adding the transitions.
      obtain ⟨d, read⟩ := exists_ofTable (Table.proper_of_validate ok).1
      rw [read]
      exact .passed (checked.ok_iff.1 ⟨symbols, ok⟩) (readFrom_ofTable read).2

/-- What is made through the index is what is made without it, and the faults of
the table are the only reason to make nothing. -/
theorem ofTable_indexed (t : Table) :
    (∀ e, ofTable t = .error e → Indexed.ofTable t = .error (.table e)) ∧
      ∀ d, ofTable t = .ok d → ∃ n, Indexed.ofTable t = .ok n ∧ Represents n d := by
  constructor
  · intro e refused
    have first : FirstFault t.checks e := ((checked_ofTable t).error_iff e).1 refused
    have checked : t.validate = .error e := (t.checked_validate.error_iff e).2 first
    rw [Indexed.ofTable, checked]
  · intro d read
    have agree := agree_ofTable t
    rw [read] at agree
    generalize Indexed.ofTable t = made at agree
    cases agree with
    | ok represents => exact ⟨_, rfl, represents⟩

/-- Reading a table never gets stuck.  It reports the first fault of the table if
there is one.  Otherwise it gives the automaton with the names, the accepting
states, the transitions and the symbols that are listed, however often they are,
which accepts what the transitions spell.  Going through an index of names
changes neither. -/
theorem ofTable_reports_first_fault (t : Table) :
    (∀ e, ofTable t = .error e ↔ FirstFault t.checks e) ∧
      (∀ refusal, Indexed.ofTable t = .error refusal ↔
        ∃ e, refusal = .table e ∧ FirstFault t.checks e) ∧
      ((∃ d, ofTable t = .ok d) ↔ ∀ check ∈ t.checks, ¬check.violated) ∧
      ∀ d, ofTable t = .ok d →
        (∃ n, Indexed.ofTable t = .ok n ∧ n.bare = d ∧ n.start = 0) ∧
          Distinct.FirstOccurrences d.ids (t.start.getD "" :: t.states) ∧
          (∀ id, id ∈ d.ids ↔ id ∈ t.states) ∧ ReadFrom t d ∧
          ∀ word, d.accepts word = true ↔ t.Accepts word := by
  have checked := checked_ofTable t
  obtain ⟨refused, made⟩ := ofTable_indexed t
  refine ⟨checked.error_iff, ?_, checked.ok_iff, ?_⟩
  · intro refusal
    constructor
    · intro stopped
      cases read : ofTable t with
      | error e =>
          rw [refused e read] at stopped
          exact ⟨e, (Except.error.inj stopped).symm, (checked.error_iff e).1 read⟩
      | ok d =>
          obtain ⟨n, ok, -⟩ := made d read
          rw [ok] at stopped
          cases stopped
    · intro found
      obtain ⟨e, rfl, first⟩ := found
      exact refused e ((checked.error_iff e).2 first)
  · intro d read
    obtain ⟨n, ok, represents⟩ := made d read
    obtain ⟨proper, h⟩ := readFrom_ofTable read
    have ids : Distinct.FirstOccurrences d.ids (t.start.getD "" :: t.states) :=
      h.ids ▸ Distinct.firstOccurrences_ofList _
    exact ⟨⟨n, ok, represents.bare, represents.start⟩, ids, fun id => mem_ids_iff proper h, h,
      fun word => h.accepts_iff⟩

def Table.repeating (accepting : String) : Table where
  states := ["a", "b", "a", "b"]
  start := some "b"
  accepting := [accepting, accepting]
  transitions := [⟨"b", "x", "a"⟩, ⟨"b", "x", "a"⟩]

theorem passes_repeating : ∀ check ∈ (Table.repeating "a").checks, ¬check.violated := by
  have single : "x".length = 1 := by decide
  simp [Table.checks, Table.rowsChecks, Table.rowChecks, Table.repeating, single]

theorem ofTable_reports_first_fault_repeating :
    Indexed.ofTable (Table.repeating "c") = .error (.table (.unknownAccepting "c")) ∧
      ∃ d, ofTable (Table.repeating "a") = .ok d ∧ d.ids = ["b", "a"] ∧
        d.accepts ['x'] = true := by
  constructor
  · have first : FirstFault (Table.repeating "c").checks (.unknownAccepting "c") :=
      ((ofTable_reports_first_fault _).1 _).1 (by decide)
    exact ((ofTable_reports_first_fault _).2.1 _).2 ⟨_, rfl, first⟩
  · obtain ⟨-, -, made, holds⟩ := ofTable_reports_first_fault (Table.repeating "a")
    obtain ⟨d, read⟩ := made.2 passes_repeating
    obtain ⟨-, -, -, h, accepts⟩ := holds d read
    refine ⟨d, read, h.ids.trans (by decide), (accepts ['x']).2 ⟨"a", by decide, ?_⟩⟩
    have listed : (⟨"b", "x", "a"⟩ : Row) ∈ (Table.repeating "a").transitions := by decide
    exact .follow (u := ['x']) listed ⟨'x', by decide, rfl⟩ (.stay "a")

end RegularLanguages.Dfa
