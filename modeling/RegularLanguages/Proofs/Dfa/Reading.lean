import RegularLanguages.Proofs.Dfa.Built
import RegularLanguages.Proofs.Dfa.Document
import RegularLanguages.Proofs.Dfa.Table
import RegularLanguages.Proofs.Document

/-! # Documents that are read back

A document holds the parts of an automaton by name and in order, so automata
with the same parts are written alike (`document_eq_iff`).  Reading a document
gives an automaton with the parts that are listed there.  So what is written is
read back with the same parts, if the states that it starts at or has
transitions at have names that are not empty (`Named`). -/
set_option autoImplicit false
namespace RegularLanguages.Dfa

variable {d m : Dfa} {doc : Document} {id : String} {row : Row} {c : Char} {t : Table}

/-! ## Documents -/

structure SameParts (d m : Dfa) : Prop where
  start : d.idOf 0 = m.idOf 0
  ids : ∀ id, id ∈ d.ids ↔ id ∈ m.ids
  accepting : ∀ id, id ∈ d.document.accepting ↔ id ∈ m.document.accepting
  rows : ∀ row, row ∈ d.document.transitions ↔ row ∈ m.document.transitions
  alphabet : d.alphabet = m.alphabet

theorem mem_states_document : id ∈ d.document.states ↔ id ∈ d.ids := List.mem_mergeSort

theorem nodup_acceptingIds (wf : WellFormed d) : (d.acceptingStates.map d.idOf).Nodup := by
  have nodup : d.acceptingStates.Nodup := List.nodup_range.filter _
  apply List.Nodup.map_on _ nodup
  intro p mem q mem' same
  simp only [acceptingStates, List.mem_filter, List.mem_range] at mem mem'
  exact wf.idOf_inj mem.1 mem'.1 same

theorem nodup_rows (wf : WellFormed d) : (d.transitions.map d.row).Nodup := by
  have nodup : d.transitions.Nodup := List.nodup_reverse.2 wf.edges_nodup
  apply List.Nodup.map_on _ nodup
  intro e mem f mem' same
  rw [transitions, List.mem_reverse] at mem mem'
  obtain ⟨sources, symbols, targets⟩ := Row.mk.inj same
  have source := wf.idOf_inj (wf.ends e mem).1 (wf.ends f mem').1 sources
  have target := wf.idOf_inj (wf.ends e mem).2 (wf.ends f mem').2 targets
  have symbol : e.symbol = f.symbol := by simpa using symbols
  cases e
  rw [Edge.mk.injEq]
  exact ⟨source, symbol, target⟩

theorem document_eq_iff (wf : WellFormed d) (wf' : WellFormed m) :
    d.document = m.document ↔ SameParts d m := by
  constructor
  · intro same
    refine ⟨congrArg Document.start same, ?_, ?_, ?_, ?_⟩
    · intro id
      rw [← mem_states_document, ← mem_states_document, same]
    · intro id
      rw [same]
    · intro row
      rw [same]
    · have injective : Function.Injective Char.toString := fun a b => by simp
      exact injective.list_map (congrArg Document.alphabet same)
  · intro same
    -- Nothing is listed twice, so equal sets are sorted to equal lists.
    have accepting := same.accepting
    have rows := same.rows
    simp only [document, List.mem_mergeSort] at accepting rows
    simp only [document, same.start, same.alphabet, Document.mk.injEq, true_and]
    refine ⟨?_, ?_, ?_⟩
    · exact mergeSort_names_eq wf.ids_nodup wf'.ids_nodup same.ids
    · exact mergeSort_names_eq (nodup_acceptingIds wf) (nodup_acceptingIds wf') accepting
    · exact Row.mergeSort_eq (nodup_rows wf) (nodup_rows wf') rows

theorem accepts_of_document_eq (wf : WellFormed d) (wf' : WellFormed m)
    (same : d.document = m.document) (word : List Char) : d.accepts word = m.accepts word := by
  rw [Bool.eq_iff_iff, ← accepts_document wf, ← accepts_document wf', same]

/-! ## Reading -/

theorem start_ids (h : ReadFrom t d) : d.idOf 0 = t.start.getD "" := by
  rw [idOf_eq, h.ids, Distinct.ofList_cons, ← List.head?_eq_getElem?, Distinct.head?_foldl_add]
  rfl

theorem mem_ids_iff (proper : t.Proper) (h : ReadFrom t d) : id ∈ d.ids ↔ id ∈ t.states := by
  obtain ⟨start, listed, given, -⟩ := proper.start
  rw [h.ids, given, Option.getD_some]
  exact Distinct.mem_ofList_cons listed

theorem foldl_addSymbolText (texts : List String) (d : Dfa) :
    (texts.foldl addSymbolText d).states = d.states ∧
      (texts.foldl addSymbolText d).edges = d.edges ∧
      ∀ c : Char, c ∈ (texts.foldl addSymbolText d).alphabet ↔
        c ∈ d.alphabet ∨ c.toString ∈ texts := by
  induction texts generalizing d with
  | nil => exact ⟨rfl, rfl, by simp⟩
  | cons text rest ih =>
      obtain ⟨states, edges, alphabet⟩ := ih (d.addSymbolText text)
      have first : (d.addSymbolText text).states = d.states ∧
          (d.addSymbolText text).edges = d.edges ∧
          ∀ c : Char, c ∈ (d.addSymbolText text).alphabet ↔ c ∈ d.alphabet ∨ c.toString = text := by
        simp only [eq_comm (b := text), eq_toString_iff]
        unfold addSymbolText
        split
        next b single => simp [single, addSymbol, or_comm, eq_comm]
        next other => exact ⟨rfl, rfl, fun c => (or_iff_left (other c)).symm⟩
      refine ⟨states.trans first.1, edges.trans first.2.1, fun c => ?_⟩
      rw [List.foldl_cons, alphabet, first.2.2, List.mem_cons, or_assoc]

structure Holds (d : Dfa) (doc : Document) : Prop where
  wellFormed : WellFormed d
  start : d.idOf 0 = doc.start
  ids : ∀ id, id ∈ d.ids ↔ id ∈ doc.states
  accepting : ∀ id, id ∈ d.document.accepting ↔ id ∈ doc.accepting
  rows : ∀ row, row ∈ d.document.transitions ↔ row ∈ doc.transitions
  alphabet : ∀ c : Char, c ∈ d.alphabet ↔
    (∃ row ∈ doc.transitions, row.symbol = c.toString) ∨ c.toString ∈ doc.alphabet

theorem holds_ofDocument (read : ofDocument doc = .ok d) : (tableOf doc).Proper ∧ Holds d doc := by
  unfold ofDocument at read
  split at read
  next => cases read
  next made ok =>
    obtain rfl := Except.ok.inj read
    obtain ⟨proper, h⟩ := readFrom_ofTable ok
    obtain ⟨states, edges, alphabet⟩ := foldl_addSymbolText doc.alphabet made
    have parts := WellFormed.addSymbolTexts h.wellFormed doc.alphabet
    generalize doc.alphabet.foldl addSymbolText made = d at states edges alphabet parts
    have idOf : d.idOf = made.idOf := by
      funext q
      simp only [Dfa.idOf, states]
    have isAccepting : d.isAccepting = made.isAccepting := by
      funext q
      simp only [Dfa.isAccepting, states]
    refine ⟨proper, parts, ?_, ?_, ?_, ?_, ?_⟩
    · rw [idOf, start_ids h]
      rfl
    · intro id
      rw [ids, states]
      exact mem_ids_iff proper h
    · intro id
      simp only [mem_accepting_document, idOf, isAccepting, size, states]
      exact h.accepting id
    · intro row
      simp only [mem_transitions_document, edges, Dfa.row, idOf]
      exact h.rows row
    · intro c
      rw [alphabet, h.alphabet]
      rfl

structure Named (d : Dfa) : Prop where
  start : d.idOf 0 ≠ ""
  ends : ∀ e ∈ d.edges, d.idOf e.source ≠ "" ∧ d.idOf e.target ≠ ""

theorem proper_document (wf : WellFormed d) (named : Named d) : (tableOf d.document).Proper where
  start := by
    refine ⟨d.idOf 0, ?_, rfl, named.start⟩
    apply mem_states_document.2
    exact mem_ids.2 ⟨0, wf.size_pos, rfl⟩
  accepting id mem := by
    obtain ⟨q, lt, -, rfl⟩ := mem_accepting_document.1 mem
    apply mem_states_document.2
    exact mem_ids.2 ⟨q, lt, rfl⟩
  rows row mem := by
    obtain ⟨e, edge, rfl⟩ := mem_transitions_document.1 mem
    obtain ⟨source, target⟩ := wf.ends e edge
    exact
      { source_mem := mem_states_document.2 (mem_ids.2 ⟨_, source, rfl⟩)
        source_ne := (named.ends e edge).1
        target_mem := mem_states_document.2 (mem_ids.2 ⟨_, target, rfl⟩)
        target_ne := (named.ends e edge).2
        symbol := ⟨e.symbol, rfl⟩ }
  unambiguous row mem other mem' source symbol :=
    congrArg Row.target (deterministic_document wf mem mem' source symbol)

/-- What is written is read back with the same parts. -/
theorem ofDocument_document (wf : WellFormed d) (named : Named d) :
    ∃ e, ofDocument d.document = .ok e ∧ WellFormed e ∧ e.document = d.document := by
  obtain ⟨made, ok⟩ := exists_ofTable (proper_document wf named)
  have read : ofDocument d.document = .ok (d.document.alphabet.foldl addSymbolText made) := by
    rw [ofDocument, ok]
  obtain ⟨-, holds⟩ := holds_ofDocument read
  refine ⟨_, read, holds.wellFormed, (document_eq_iff holds.wellFormed wf).2 ?_⟩
  refine ⟨holds.start, ?_, holds.accepting, holds.rows, ?_⟩
  · intro id
    rw [holds.ids, mem_states_document]
  · apply holds.wellFormed.increasing.ext wf.increasing
    intro c
    rw [holds.alphabet]
    -- The transitions add no character that the alphabet does not have.
    constructor
    · rintro (⟨row, mem, symbol⟩ | mem)
      · obtain ⟨e, edge, rfl⟩ := mem_transitions_document.1 mem
        have same : e.symbol = c := by simpa [Dfa.row] using symbol
        exact same ▸ wf.symbols e edge
      · simpa [document] using mem
    · intro mem
      exact .inr (List.mem_map_of_mem mem)

end RegularLanguages.Dfa
