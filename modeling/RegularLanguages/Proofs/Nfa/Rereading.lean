import RegularLanguages.Proofs.Document
import RegularLanguages.Proofs.Nfa.Renaming

/-! # Reading a written automaton again

A state is named after its number, so the names in their order are the numbers
(`stateNames_document`), and reading gives back the states and the edges, sorted.
Only labels may change: a character that stands for something else in a table is
read as what it stands for (`Label.reread`).  Without such characters the
automaton accepts the same words as before and is written the same way. -/
set_option autoImplicit false
namespace RegularLanguages

def Label.reread : Label → Label
  | symbol c => ofChar c
  | any => any
  | epsilon => epsilon

theorem Label.ofText_text (label : Label) : ofText label.text = .ok label.reread := by
  cases label with
  | symbol c => simp [ofText, text, reread]
  | any => rfl
  | epsilon => rfl

/-- The label as a table can hold it: `.` has become any character, and `ε` and
`λ` have become nothing. -/
def Label.tabular (label : Label) : Label :=
  if label = symbol '.' then any
  else if label = symbol 'ε' ∨ label = symbol 'λ' then epsilon
  else label

theorem Label.reread_eq_tabular (label : Label) : label.reread = label.tabular := by
  cases label with
  | symbol c =>
      simp only [reread, ofChar, tabular, symbol.injEq]
      split <;> simp_all
  | any => rfl
  | epsilon => rfl

theorem Label.reread_eq_self {label : Label} (plain : ∀ c ∈ ['.', 'ε', 'λ'], label ≠ symbol c) :
    label.reread = label := by
  cases label with
  | symbol c =>
      apply ofChar_eq_symbol_iff.2
      exact ⟨rfl, fun reserved => plain c reserved rfl⟩
  | any => rfl
  | epsilon => rfl

theorem Label.rank_lt_of_symbol (c : Char) : rank (symbol c) < rank any := by
  rcases c.valid with low | ⟨-, high⟩
  · exact Nat.lt_trans low (by decide)
  · exact high

theorem Label.rank_injective : Function.Injective rank := by
  intro a b same
  cases a with
  | symbol c =>
      have below := rank_lt_of_symbol c
      cases b with
      | symbol d => exact congrArg symbol (Char.toNat_inj.1 same)
      | any => exact absurd same (Nat.ne_of_lt below)
      | epsilon => exact absurd same (Nat.ne_of_lt (Nat.lt_succ_of_lt below))
  | any =>
      cases b with
      | symbol d => exact absurd same (Nat.ne_of_gt (rank_lt_of_symbol d))
      | any => rfl
      | epsilon => cases same
  | epsilon =>
      cases b with
      | symbol d => exact absurd same (Nat.ne_of_gt (Nat.lt_succ_of_lt (rank_lt_of_symbol d)))
      | any => cases same
      | epsilon => rfl

namespace Nfa

variable {n m : Nfa} {e : Edge} {p q : Nat} {word : List Char} {c : Char}

/-! ## Names -/

theorem stateName_injective : Function.Injective stateName := by
  intro p q same
  exact numbered_injective same

theorem stateName_ne_empty (q : Nat) : stateName q ≠ "" := by
  simp [stateName, String.append_eq_empty_iff]

theorem stateNames_document (pos : 0 < n.size) :
    stateNames n.document = (List.range n.size).map stateName := by
  have nodup : ((List.range n.size).map stateName).Nodup :=
    List.nodup_range.map stateName_injective
  obtain ⟨size, shape⟩ := Nat.exists_eq_succ_of_ne_zero (Nat.ne_of_gt pos)
  have names : (List.range n.size).map stateName =
      stateName 0 :: (List.range size).map (stateName ∘ Nat.succ) := by
    rw [shape, List.range_succ_eq_map, List.map_cons, List.map_map]
  have listed : n.document.start :: n.document.states =
      stateName 0 :: (List.range n.size).map stateName := rfl
  -- The start is added before the list, which it is the first of.
  rw [stateNames, listed, names, Distinct.ofList_cons_cons, ← names]
  exact Distinct.ofList_of_nodup nodup

theorem getElem?_stateNames_document (pos : 0 < n.size) :
    (stateNames n.document)[q]? = some (stateName p) ↔ q = p ∧ p < n.size := by
  rw [stateNames_document pos, List.getElem?_map, Option.map_eq_some_iff]
  simp only [List.getElem?_eq_some_iff, List.length_range, List.getElem_range]
  constructor
  · rintro ⟨_, ⟨lt, rfl⟩, same⟩
    exact ⟨stateName_injective same, stateName_injective same ▸ lt⟩
  · rintro ⟨rfl, lt⟩
    exact ⟨q, ⟨lt, rfl⟩, rfl⟩

/-! ## What is read -/

def Edge.reread (e : Edge) : Edge := ⟨e.source, e.label.reread, e.target⟩

structure Reread (n m : Nfa) : Prop where
  wellFormed : WellFormed m
  size : m.size = n.size
  edges : m.edges = (n.edges.mergeSort Edge.le).map Edge.reread
  isAccepting : ∀ q, m.isAccepting q = n.isAccepting q
  mem_alphabet : ∀ c, c ∈ m.alphabet ↔ c ∉ ['.', 'ε', 'λ'] ∧ c ∈ n.alphabet

theorem eq_reread_of_describes (pos : 0 < n.size) {f : Edge}
    (described : Describes (stateNames n.document) e.row f) : f = e.reread := by
  have source := ((getElem?_stateNames_document pos).1 described.source).1
  have target := ((getElem?_stateNames_document pos).1 described.target).1
  have label := described.label.symm.trans e.label.ofText_text
  cases f
  rw [Edge.reread, Edge.mk.injEq]
  exact ⟨source, Except.ok.inj label, target⟩

theorem idxOf?_stateName (lt : q < n.size) :
    (stateNames n.document).idxOf? (stateName q) = some q :=
  (Distinct.idxOf?_eq_some_iff (nodup_stateNames _)).2
    ((getElem?_stateNames_document (Nat.zero_lt_of_lt lt)).2 ⟨rfl, lt⟩)

theorem readRows_row (index : Nat) {edges : List Edge}
    (ends : ∀ e ∈ edges, e.source < n.size ∧ e.target < n.size) :
    readRows (stateNames n.document) index (edges.map Edge.row) =
      .ok (edges.map Edge.reread) := by
  induction edges generalizing index with
  | nil => rfl
  | cons e rest ih =>
      rw [List.forall_mem_cons] at ends
      have first : readRow (stateNames n.document) index e.row = .ok e.reread := by
        simp only [readRow, Edge.row, stateName_ne_empty, or_self, if_false, Label.ofText_text,
          idxOf?_stateName ends.1.1, idxOf?_stateName ends.1.2]
        rfl
      rw [List.map_cons, readRows, first]
      simp only [ih (index + 1) ends.2]
      rfl

theorem exists_ofDocument_document (wf : WellFormed n) :
    ∃ m, ofDocument n.document = .ok m := by
  have ends : ∀ e ∈ n.edges.mergeSort Edge.le, e.source < n.size ∧ e.target < n.size := by
    intro e mem
    exact wf.ends e (List.mem_mergeSort.1 mem)
  have rows : readRows (stateNames n.document) 0 n.document.transitions = .ok _ :=
    readRows_row 0 ends
  have listed : ∀ q < n.size, stateName q ∈ n.document.states := fun q lt =>
    List.mem_map_of_mem (List.mem_range.2 lt)
  have start : n.document.start ∈ n.document.states := listed 0 wf.size_pos
  have named : n.document.start ≠ "" := stateName_ne_empty 0
  have accepting : n.document.accepting.find? (· ∉ n.document.states) = none := by
    rw [List.find?_eq_none]
    intro name mem
    obtain ⟨q, accepts, rfl⟩ := List.mem_map.1 mem
    simpa using listed q (wf.accepting q accepts)
  unfold ofDocument
  rw [if_neg (List.ne_nil_of_mem start), if_neg named, if_neg (not_not.2 start), accepting]
  unfold stateNames at rows
  simp only [rows]
  exact ⟨_, rfl⟩

theorem toList_text_eq_singleton {label : Label} (plain : c ∉ ['.', 'ε', 'λ']) :
    label.text.toList = [c] ↔ label = .symbol c := by
  have read := label.ofText_text
  constructor
  · intro single
    rw [Label.ofText_eq_symbol_iff.2 ⟨single, plain⟩] at read
    have same := Except.ok.inj read
    cases label with
    | symbol d => simpa [Label.text] using single
    | any => cases same
    | epsilon => cases same
  · rintro rfl
    simp [Label.text]

/-- The transitions give the edges, in the order in which they are written, and
the reserved characters drop out of the alphabet. -/
theorem reread_of_ofDocument (wf : WellFormed n) (read : ofDocument n.document = .ok m) :
    Reread n m := by
  have h := readFrom_ofDocument read
  have pos := wf.size_pos
  refine ⟨h.wellFormed, ?_, ?_, ?_, ?_⟩
  · rw [size_ofDocument read, stateNames_document pos, List.length_map, List.length_range]
  · have each : List.Forall₂ (Describes (stateNames n.document))
        ((n.edges.mergeSort Edge.le).map Edge.row) m.edges := h.edges
    rw [List.forall₂_map_left_iff] at each
    -- Two lists that agree entry by entry are equal.
    have rereads := each.imp fun e f described => eq_reread_of_describes pos described
    rw [← List.forall₂_eq_eq_eq, List.forall₂_map_right_iff]
    exact rereads.flip
  · intro q
    have listed : n.document.accepting = n.accepting.map stateName := rfl
    rw [Bool.eq_iff_iff, h.isAccepting, listed, isAccepting, List.contains_iff_mem]
    constructor
    · rintro ⟨name, mem, there⟩
      obtain ⟨p, accepting, rfl⟩ := List.mem_map.1 mem
      exact ((getElem?_stateNames_document pos).1 there).1 ▸ accepting
    · intro accepting
      exact ⟨_, List.mem_map_of_mem accepting,
        (getElem?_stateNames_document pos).2 ⟨rfl, wf.accepting q accepting⟩⟩
  · intro c
    rw [h.mem_alphabet, Document.Names]
    apply and_congr_right
    intro plain
    have entries : (∃ entry ∈ n.document.alphabet, entry.toList = [c]) ↔ c ∈ n.alphabet := by
      simp [document]
    have rows : (∃ row ∈ n.document.transitions, row.symbol.toList = [c]) → c ∈ n.alphabet := by
      rintro ⟨row, mem, single⟩
      simp only [document, List.mem_map, List.mem_mergeSort] at mem
      obtain ⟨e, edge, rfl⟩ := mem
      have label := (toList_text_eq_singleton plain).1 single
      exact wf.symbols e edge c (by rw [label]; rfl)
    rw [entries]
    exact or_iff_right_of_imp rows

/-! ## Without reserved characters -/

theorem mem_literals : c ∈ n.literals ↔ ∃ e ∈ n.edges, e.label.symbol? = some c := by
  rw [literals, OrderedSet.mem_ofList, List.mem_filterMap]

theorem WellFormed.literals_subset (wf : WellFormed n) : n.literals ⊆ n.alphabet := by
  intro c mem
  obtain ⟨e, edge, names⟩ := mem_literals.1 mem
  exact wf.symbols e edge c names

theorem reread_eq_self (plain : ∀ c ∈ ['.', 'ε', 'λ'], c ∉ n.literals) (edge : e ∈ n.edges) :
    e.reread = e := by
  have label : e.label.reread = e.label := by
    apply Label.reread_eq_self
    intro c reserved same
    exact plain c reserved (mem_literals.2 ⟨e, edge, by rw [same]; rfl⟩)
  rw [Edge.reread, label]

namespace Reread

theorem perm_reread (h : Reread n m) : m.edges.Perm (n.edges.map Edge.reread) := by
  rw [h.edges]
  exact (List.mergeSort_perm _ _).map _

theorem perm_edges (h : Reread n m) (plain : ∀ c ∈ ['.', 'ε', 'λ'], c ∉ n.literals) :
    m.edges.Perm n.edges := by
  have kept : n.edges.map Edge.reread = n.edges :=
    (List.map_congr_left fun e edge => reread_eq_self plain edge).trans (List.map_id _)
  exact kept ▸ h.perm_reread

/-- Words are read over edges, so a character that only the alphabet has does not
matter here. -/
theorem accepts_eq_of_literals (h : Reread n m) (wf : WellFormed n)
    (plain : ∀ c ∈ ['.', 'ε', 'λ'], c ∉ n.literals) (word : List Char) :
    m.accepts word = n.accepts word := by
  have edges := h.perm_edges plain
  rw [Bool.eq_iff_iff, wf.accepts_iff_hasAcceptingPath, h.wellFormed.accepts_iff_hasAcceptingPath]
  constructor
  · intro accepted
    obtain ⟨q, accepting, path⟩ := accepted
    exact ⟨q, h.isAccepting q ▸ accepting, path.mono fun e => edges.mem_iff.1⟩
  · intro accepted
    obtain ⟨q, accepting, path⟩ := accepted
    exact ⟨q, (h.isAccepting q).symm ▸ accepting, path.mono fun e => edges.mem_iff.2⟩

theorem alphabet_eq_filter (h : Reread n m) (wf : WellFormed n) :
    m.alphabet = n.alphabet.filter (· ∉ ['.', 'ε', 'λ']) := by
  apply h.wellFormed.increasing.ext (wf.increasing.filter _)
  intro c
  rw [h.mem_alphabet, List.mem_filter, decide_eq_true_iff, and_comm]

section Plain

variable (plain : ∀ c ∈ ['.', 'ε', 'λ'], c ∉ n.alphabet)
include plain

theorem accepts_eq (h : Reread n m) (wf : WellFormed n) (word : List Char) :
    m.accepts word = n.accepts word := by
  apply h.accepts_eq_of_literals wf
  intro c reserved mem
  exact plain c reserved (wf.literals_subset mem)

theorem alphabet_eq (h : Reread n m) (wf : WellFormed n) : m.alphabet = n.alphabet := by
  rw [h.alphabet_eq_filter wf, List.filter_eq_self]
  intro c mem
  exact decide_eq_true fun reserved => plain c reserved mem

end Plain

end Reread

/-! ## Written alike -/

def Edge.key (e : Edge) : ℕ ×ₗ ℕ ×ₗ ℕ := toLex (e.source, toLex (e.label.rank, e.target))

theorem Edge.key_injective : Function.Injective key := by
  intro a b same
  have parts : a.source = b.source ∧ a.label.rank = b.label.rank ∧ a.target = b.target := by
    simpa [key] using same
  obtain ⟨source, rank, target⟩ := parts
  cases a
  cases b
  rw [Edge.mk.injEq]
  exact ⟨source, Label.rank_injective rank, target⟩

theorem Edge.le_iff (a b : Edge) : le a b = true ↔ a.key ≤ b.key := by
  simp [le, key, Prod.Lex.le_iff]

theorem document_eq_of_perm (size : m.size = n.size) (edges : m.edges.Perm n.edges)
    (accepting : m.accepting = n.accepting) (alphabet : m.alphabet = n.alphabet) :
    m.document = n.document := by
  have sorted : m.edges.mergeSort Edge.le = n.edges.mergeSort Edge.le :=
    mergeSort_eq_of_perm Edge.key_injective Edge.le_iff edges
  rw [document, document, size, sorted, accepting, alphabet]

/-! ## Every automaton that the operations build -/

theorem accepting_addLabel (n : Nfa) (label : Label) :
    (n.addLabel label).accepting = n.accepting := by
  rw [addLabel]
  split <;> rfl

theorem Built.increasing_accepting (built : Built n) : OrderedSet.Increasing n.accepting := by
  induction built with
  | new => exact List.Pairwise.nil
  | addState _ ih => exact ih
  | addSymbol c _ ih => exact ih
  | addEdge _ _ _ ih => exact (accepting_addLabel _ _).symm ▸ ih
  | @setAccepting _ q _ _ ih => exact ih.insert q

theorem increasing_accepting_ofDocument {doc : Document} (read : ofDocument doc = .ok n) :
    OrderedSet.Increasing n.accepting := by
  obtain ⟨-, edges, -, rfl⟩ := ofDocument_ok read
  rw [(foldl_addSymbol _ _).2.2.1]
  exact OrderedSet.increasing_ofList _

/-- What the operations build can be written and read.  The states, the accepting
ones and the edges come back under their numbers, each edge as often as before.
A label stays unless it is `.`, `ε` or `λ`, which stand for something else in a
table, and these three are lost from the alphabet.  If it has none of them, the
automaton is written the same way again.  What it accepts changes only if one of
them is on an edge. -/
theorem document_reads_back (built : Built n) :
    ∃ m, ofDocument n.document = .ok m ∧
      m.size = n.size ∧ m.accepting = n.accepting ∧
      m.edges.Perm (n.edges.map fun e => ⟨e.source, e.label.tabular, e.target⟩) ∧
      m.alphabet = n.alphabet.filter (· ∉ ['.', 'ε', 'λ']) ∧
      ((∀ c ∈ ['.', 'ε', 'λ'], c ∉ n.literals) → ∀ word, m.accepts word = n.accepts word) ∧
      ((∀ c ∈ ['.', 'ε', 'λ'], c ∉ n.alphabet) →
        m.document = n.document ∧ ∀ word, m.accepts word = n.accepts word) := by
  have wf := built.wellFormed
  obtain ⟨m, read⟩ := exists_ofDocument_document wf
  have h := reread_of_ofDocument wf read
  have accepting : m.accepting = n.accepting := by
    apply (increasing_accepting_ofDocument read).ext built.increasing_accepting
    intro q
    rw [← List.contains_iff_mem, ← List.contains_iff_mem, ← isAccepting, ← isAccepting,
      h.isAccepting]
  have labels : Edge.reread = fun e : Edge => ⟨e.source, e.label.tabular, e.target⟩ := by
    funext e
    rw [Edge.reread, Label.reread_eq_tabular]
  refine ⟨m, read, h.size, accepting, labels ▸ h.perm_reread, h.alphabet_eq_filter wf,
    h.accepts_eq_of_literals wf, ?_⟩
  intro plain
  have onEdges : ∀ c ∈ ['.', 'ε', 'λ'], c ∉ n.literals := fun c reserved mem =>
    plain c reserved (wf.literals_subset mem)
  exact ⟨document_eq_of_perm h.size (h.perm_edges onEdges) accepting (h.alphabet_eq plain wf),
    h.accepts_eq plain wf⟩

theorem document_reads_back_cycle :
    Built (cycle (.symbol '.')) ∧ Built (cycle (.symbol 'b')) ∧
      (∃ m, ofDocument (cycle (.symbol '.')).document = .ok m ∧
        m.edges.Perm [⟨0, .symbol 'a', 2⟩, ⟨1, .any, 1⟩, ⟨1, .epsilon, 0⟩, ⟨0, .epsilon, 1⟩] ∧
        m.accepting = [2] ∧ m.alphabet = ['a']) ∧
      ∃ m, ofDocument (cycle (.symbol 'b')).document = .ok m ∧
        (∀ c ∈ ['.', 'ε', 'λ'], c ∉ (cycle (.symbol 'b')).alphabet) ∧
        m.document = (cycle (.symbol 'b')).document ∧ m.accepts ['b', 'a'] = true := by
  refine ⟨built_cycle _, built_cycle _, ?_, ?_⟩
  · obtain ⟨m, read, -, accepting, edges, alphabet, -⟩ :=
      document_reads_back (built_cycle (.symbol '.'))
    exact ⟨m, read, edges, accepting, alphabet.trans (by decide)⟩
  · obtain ⟨m, read, -, -, -, -, -, same⟩ := document_reads_back (built_cycle (.symbol 'b'))
    have alphabet : (cycle (.symbol 'b')).alphabet = ['a', 'b'] := by decide
    have plain : ∀ c ∈ ['.', 'ε', 'λ'], c ∉ (cycle (.symbol 'b')).alphabet := by simp [alphabet]
    obtain ⟨written, accepts⟩ := same plain
    exact ⟨m, read, plain, written, (accepts ['b', 'a']).trans (by decide)⟩

end Nfa

end RegularLanguages
