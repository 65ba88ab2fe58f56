import RegularLanguages.Nfa.Spec
import RegularLanguages.Proofs.Nfa.Loading
import RegularLanguages.Proofs.Nfa.Renaming

/-! # Documents are read or refused for their first fault

Reading a document reports the first check that fails, and gives an automaton if
none does (`checked_ofDocument`).  A check on a transition asks whether its ends
are listed and the reading asks for their numbers, which is the same if the start
is listed.  An automaton that is built while the checks are made reports the same
faults, and no others: no mark and no edge is refused. -/
set_option autoImplicit false
namespace RegularLanguages.Nfa

variable {doc : Document} {names states : List String} {row : Row} {rows : List Row}
  {index : Nat} {text : String} {n : Nfa} {c : Char}

/-! ## Transitions -/

theorem ofText_eq_error_iff {e : TableError} :
    Label.ofText text = .error e ↔ 1 < text.length ∧ e = .invalidSymbol text := by
  rw [Label.ofText, ← String.length_toList]
  split
  next empty => simp [empty]
  next c single => simp [single]
  next long => simp [long, eq_comm]

section Rows

variable (nodup : names.Nodup) (same : ∀ name, name ∈ names ↔ name ∈ states)
include nodup same

theorem checked_readRow (index : Nat) (row : Row) :
    Checked (rowChecks states index row) (Describes names row) (readRow names index row) := by
  unfold rowChecks readRow
  by_cases missing : row.source = "" ∨ row.target = ""
  · rw [if_pos missing]
    exact .fault (.here missing)
  rw [if_neg missing]
  cases read : Label.ofText row.symbol with
  | error e =>
      obtain ⟨long, rfl⟩ := ofText_eq_error_iff.1 read
      exact .fault (.later missing (.here long))
  | ok label =>
      have short : ¬1 < row.symbol.length := by
        intro long
        rw [ofText_eq_error_iff.2 ⟨long, rfl⟩] at read
        cases read
      cases from? : names.idxOf? row.source with
      | none =>
          have unknown := mt (same row.source).2 (List.idxOf?_eq_none_iff.1 from?)
          exact .fault (.later missing (.later short (.here unknown)))
      | some p =>
          have source := (Distinct.idxOf?_eq_some_iff nodup).1 from?
          have known : ¬row.source ∉ states :=
            not_not.2 ((same row.source).1 (List.mem_of_getElem? source))
          cases to? : names.idxOf? row.target with
          | none =>
              have unknown := mt (same row.target).2 (List.idxOf?_eq_none_iff.1 to?)
              exact .fault (.later missing (.later short (.later known (.here unknown))))
          | some q =>
              have target := (Distinct.idxOf?_eq_some_iff nodup).1 to?
              have known' : ¬row.target ∉ states :=
                not_not.2 ((same row.target).1 (List.mem_of_getElem? target))
              refine .passed ?_ ⟨source, read, target⟩
              simp only [List.forall_mem_cons, List.not_mem_nil]
              exact ⟨missing, short, known, known', by simp⟩

theorem checked_readRows (index : Nat) (rows : List Row) :
    Checked (rows.mapIdx fun i => rowChecks states (index + i)).flatten
      (List.Forall₂ (Describes names) rows) (readRows names index rows) := by
  induction rows generalizing index with
  | nil => exact .passed (by simp) .nil
  | cons row rest ih =>
      have first := checked_readRow nodup same index row
      have others := ih (index + 1)
      simp only [Nat.add_assoc, Nat.add_comm 1] at others
      rw [List.mapIdx_cons, List.flatten_cons, Nat.add_zero, readRows]
      generalize readRow names index row = read at first
      generalize readRows names (index + 1) rest = read' at others
      cases first with
      | fault h => exact .fault (h.append _)
      | passed ok described =>
          refine Checked.after ?_ ok
          cases others with
          | fault h => exact .fault h
          | passed ok' each => exact .passed ok' (.cons described each)

end Rows

/-! ## Documents -/

theorem checked_faults (doc : Document) :
    Checked (checks doc) (fun _ => True) (ofDocument doc) := by
  unfold checks ofDocument
  rw [List.append_assoc]
  by_cases stateless : doc.states = []
  · rw [if_pos stateless]
    exact .fault (.here stateless)
  by_cases empty : doc.start = ""
  · rw [if_neg stateless, if_pos empty]
    exact .fault (.later stateless (.here empty))
  by_cases unlisted : doc.start ∉ doc.states
  · rw [if_neg stateless, if_neg empty, if_pos unlisted]
    exact .fault (.later stateless (.later empty (.here unlisted)))
  rw [if_neg stateless, if_neg empty, if_neg unlisted]
  have begin : ∀ check ∈ [⟨doc.states = [], .noStates⟩, ⟨doc.start = "", .missingStart⟩,
      ⟨doc.start ∉ doc.states, .unknownStart doc.start⟩], ¬Check.violated check := by
    simpa [stateless, empty] using unlisted
  refine Checked.after ?_ begin
  cases unknown : doc.accepting.find? (· ∉ doc.states) with
  | some state => exact .fault ((FirstFault.of_find? unknown).append _)
  | none =>
      have accepting : ∀ check ∈ doc.accepting.map fun state =>
          (⟨state ∉ doc.states, .unknownAccepting state⟩ : Check), ¬check.violated := by
        simpa using unknown
      have same : ∀ name, name ∈ stateNames doc ↔ name ∈ doc.states := fun name =>
        Distinct.mem_ofList_cons (not_not.1 unlisted)
      have each := checked_readRows (nodup_stateNames doc) same 0 doc.transitions
      simp only [Nat.zero_add] at each
      unfold stateNames at each
      dsimp only
      generalize readRows _ 0 doc.transitions = read at each
      refine Checked.after ?_ accepting
      cases each with
      | fault h => exact .fault h
      | passed ok each => exact .passed ok trivial

theorem checked_ofDocument (doc : Document) :
    Checked (checks doc) (ReadFrom doc) (ofDocument doc) := by
  have checked := checked_faults doc
  cases read : ofDocument doc with
  | error e => exact .fault ((checked.error_iff e).1 read)
  | ok n => exact .passed (checked.ok_iff.1 ⟨n, read⟩) (readFrom_ofDocument read)

theorem ReadFrom.mem_alphabet_iff_edges (h : ReadFrom doc n) : c ∈ n.alphabet ↔
    (∃ e ∈ n.edges, e.label = .symbol c) ∨
      c ∉ ['.', 'ε', 'λ'] ∧ ∃ entry ∈ doc.alphabet, entry.toList = [c] := by
  have label : ∀ e : Edge, e.label = .symbol c ↔ e.label.symbol? = some c := by
    intro e
    cases e.label <;> simp [Label.symbol?]
  simp only [label]
  rw [h.mem_alphabet, Document.Names, exists_symbol_iff h.edges, and_or_left]

/-- Reading a document never gets stuck.  It reports the first fault of the
document if there is one.  Otherwise it gives an automaton with one state for
each name, the start first and the others where they first occur, in which the
listed states accept and each transition has its edge.  The alphabet has the
characters on the edges and those that are listed.  Building the automaton while
the checks are made changes nothing but the order of its edges. -/
theorem ofDocument_reports_first_fault (doc : Document) :
    (∀ e, ofDocument doc = .error e ↔ FirstFault (checks doc) e) ∧
      (∀ refusal, load doc = .error refusal ↔
        ∃ e, refusal = .table e ∧ FirstFault (checks doc) e) ∧
      ((∃ n, ofDocument doc = .ok n) ↔ ∀ check ∈ checks doc, ¬check.violated) ∧
      ∀ n, ofDocument doc = .ok n →
        load doc = .ok { n with edges := n.edges.reverse } ∧
          n.size = (stateNames doc).length ∧
          Distinct.FirstOccurrences (stateNames doc) (doc.start :: doc.states) ∧
          (∀ name, name ∈ stateNames doc ↔ name ∈ doc.states) ∧
          (stateNames doc)[0]? = some doc.start ∧
          (∀ q, n.isAccepting q = true ↔
            ∃ name ∈ doc.accepting, (stateNames doc)[q]? = some name) ∧
          List.Forall₂ (Describes (stateNames doc)) doc.transitions n.edges ∧
          OrderedSet.Increasing n.alphabet ∧
          ∀ c, c ∈ n.alphabet ↔ (∃ e ∈ n.edges, e.label = .symbol c) ∨
            c ∉ ['.', 'ε', 'λ'] ∧ ∃ entry ∈ doc.alphabet, entry.toList = [c] := by
  have checked := checked_ofDocument doc
  refine ⟨checked.error_iff, ?_, checked.ok_iff, ?_⟩
  · intro refusal
    simp only [load_eq_error_iff, checked.error_iff]
  · intro n read
    have h := checked.good_of_ok read
    exact ⟨load_of_ofDocument read, size_ofDocument read, Distinct.firstOccurrences_ofList _,
      fun name => mem_stateNames_iff read, start_stateNames doc, h.isAccepting, h.edges,
      h.wellFormed.increasing, fun c => h.mem_alphabet_iff_edges⟩

def repeating (accepting : String) : Document where
  alphabet := ["z", ".", "z", "no"]
  states := ["a", "b", "a", "b"]
  start := "b"
  accepting := [accepting, accepting]
  transitions := [⟨"b", "x", "a"⟩, ⟨"a", "", "a"⟩, ⟨"b", "x", "a"⟩]

theorem passes_repeating : ∀ check ∈ checks (repeating "a"), ¬check.violated := by
  have single : "x".length = 1 := by decide
  simp [checks, rowChecks, repeating, single]

theorem ofDocument_reports_first_fault_repeating :
    load (repeating "c") = .error (.table (.unknownAccepting "c")) ∧
      ∃ n, ofDocument (repeating "a") = .ok n ∧ n.size = 2 ∧ n.isAccepting 1 = true ∧
        n.edges.length = 3 ∧ 'z' ∈ n.alphabet ∧ '.' ∉ n.alphabet := by
  constructor
  · have first : FirstFault (checks (repeating "c")) (.unknownAccepting "c") :=
      ((ofDocument_reports_first_fault _).1 _).1 (by decide)
    exact ((ofDocument_reports_first_fault _).2.1 _).2 ⟨_, rfl, first⟩
  · obtain ⟨-, -, made, holds⟩ := ofDocument_reports_first_fault (repeating "a")
    obtain ⟨n, read⟩ := made.2 passes_repeating
    obtain ⟨-, size, -, -, -, accepting, edges, -, alphabet⟩ := holds n read
    refine ⟨n, read, size.trans (by decide), (accepting 1).2 ⟨"a", by decide, by decide⟩,
      edges.length_eq.symm, (alphabet 'z').2 (.inr (by decide)), ?_⟩
    intro known
    rcases (alphabet '.').1 known with ⟨e, edge, label⟩ | ⟨plain, -⟩
    · obtain ⟨row, -, described⟩ := (exists_describes edges).2 e edge
      have read := described.label
      rw [label, Label.ofText_eq_symbol_iff] at read
      exact read.2 (by decide)
    · exact plain (by decide)

end RegularLanguages.Nfa
