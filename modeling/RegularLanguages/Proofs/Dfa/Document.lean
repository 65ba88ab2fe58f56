import RegularLanguages.Dfa.Document
import RegularLanguages.Document.Path
import RegularLanguages.Proofs.Dfa.Building

/-! # What the written form of an automaton accepts

Names of states differ, so the rows of a document lead from name to name as the
edges do from state to state.  Sorting them changes nothing: a path through the
rows is a run (`path_document`), and the document accepts the words of the
automaton. -/
set_option autoImplicit false
namespace RegularLanguages.Dfa

variable {d : Dfa} {p q : Nat} {word : List Char} {name : String} {row : Row}

theorem length_states_document (d : Dfa) : d.document.states.length = d.size := by
  simp [document, size]

theorem nodup_states_document (wf : WellFormed d) : d.document.states.Nodup :=
  (List.mergeSort_perm _ _).nodup_iff.2 wf.ids_nodup

theorem mem_transitions_document :
    row ∈ d.document.transitions ↔ ∃ e ∈ d.edges, d.row e = row := by
  simp only [document, List.mem_mergeSort, List.mem_map, transitions, List.mem_reverse]

theorem mem_accepting_document :
    name ∈ d.document.accepting ↔ ∃ q < d.size, d.isAccepting q = true ∧ d.idOf q = name := by
  simp only [document, List.mem_mergeSort, List.mem_map, acceptingStates, List.mem_filter,
    List.mem_range, and_assoc]

theorem readsLiterally_symbol {c : Char} : readsLiterally c.toString word ↔ word = [c] := by
  simp [readsLiterally]

theorem deterministic_document (wf : WellFormed d) {other : Row}
    (mem : row ∈ d.document.transitions) (mem' : other ∈ d.document.transitions)
    (sources : row.source = other.source) (symbols : row.symbol = other.symbol) : row = other := by
  obtain ⟨e, edge, rfl⟩ := mem_transitions_document.1 mem
  obtain ⟨f, edge', rfl⟩ := mem_transitions_document.1 mem'
  have sources := wf.idOf_inj (wf.ends e edge).1 (wf.ends f edge').1 sources
  have symbols : e.symbol = f.symbol := by simpa [row] using symbols
  have targets := wf.deterministic e edge f edge' sources symbols
  rw [row, row, sources, symbols, targets]

theorem path_document (wf : WellFormed d) (lt : p < d.size) :
    Row.Path readsLiterally d.document.transitions (d.idOf p) word name ↔
      ∃ q, d.run p word = some q ∧ d.idOf q = name := by
  constructor
  · intro path
    generalize start : d.idOf p = first at path
    induction path generalizing p with
    | stay state => exact ⟨p, rfl, start⟩
    | @follow row u v state mem reads _ ih =>
        obtain ⟨e, edge, rfl⟩ := mem_transitions_document.1 mem
        obtain rfl := readsLiterally_symbol.1 reads
        obtain rfl := wf.idOf_inj lt (wf.ends e edge).1 start
        obtain ⟨q, run, named⟩ := ih (wf.ends e edge).2 rfl
        refine ⟨q, ?_, named⟩
        rw [List.singleton_append, run_cons, wf.det.successor_eq_some_iff.2 edge]
        exact run
  · rintro ⟨q, run, rfl⟩
    induction word generalizing p with
    | nil =>
        obtain rfl := Option.some.inj run
        exact .stay _
    | cons c rest ih =>
        rw [run_cons] at run
        obtain ⟨next, step, onward⟩ := Option.bind_eq_some_iff.1 run
        have row : d.row ⟨p, c, next⟩ ∈ d.document.transitions :=
          mem_transitions_document.2 ⟨_, mem_edges_of_successor step, rfl⟩
        exact .follow (u := [c]) row (readsLiterally_symbol.2 rfl)
          (ih (wf.det.successor_lt step) onward)

/-- The document accepts the words that the automaton accepts. -/
theorem accepts_document (wf : WellFormed d) :
    d.document.Accepts readsLiterally word ↔ d.accepts word = true := by
  rw [accepts_eq_acceptsFrom, acceptsFrom_iff]
  constructor
  · rintro ⟨name, accepting, path⟩
    obtain ⟨q, lt, marked, rfl⟩ := mem_accepting_document.1 accepting
    obtain ⟨p, run, named⟩ := (path_document wf wf.size_pos).1 path
    obtain rfl := wf.idOf_inj (wf.det.run_lt wf.size_pos run) lt named
    exact ⟨p, run, marked⟩
  · rintro ⟨q, run, marked⟩
    exact ⟨d.idOf q,
      mem_accepting_document.2 ⟨q, wf.det.run_lt wf.size_pos run, marked, rfl⟩,
      (path_document wf wf.size_pos).2 ⟨q, run, rfl⟩⟩

end RegularLanguages.Dfa
