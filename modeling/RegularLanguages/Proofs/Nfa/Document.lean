import RegularLanguages.Document.Path
import RegularLanguages.Nfa.Spec
import RegularLanguages.Proofs.Distinct
import RegularLanguages.Proofs.Nfa.Built

/-! # What an automaton that is read from a table accepts

The names of a table, the start first and each once, are in the order of the
numbers of their states, and the edges are in the order of the transitions that
they stand for (`ReadFrom`).  So a path over transitions from name to name is a
path over edges from number to number that spells the same
(`ReadFrom.path_iff`).  In a path over edges `.` reads any character, in one
over transitions any character of the given alphabet. -/
set_option autoImplicit false
namespace RegularLanguages

variable {text : String} {alphabet word : List Char} {c : Char}

/-! ## Labels -/

theorem Label.ofChar_eq_symbol_iff {d : Char} :
    Label.ofChar c = .symbol d ↔ c = d ∧ d ∉ ['.', 'ε', 'λ'] := by
  unfold ofChar
  split
  next => simp +contextual [eq_comm]
  next => simp +contextual [eq_comm]
  next => simp +contextual [eq_comm]
  next epsilon lambda dot =>
    rw [Label.symbol.injEq, iff_self_and]
    rintro rfl
    simp only [List.mem_cons, List.not_mem_nil, or_false]
    rintro (same | same | same)
    · exact dot same
    · exact epsilon same
    · exact lambda same

theorem Label.ofText_eq_symbol_iff :
    Label.ofText text = .ok (.symbol c) ↔ text.toList = [c] ∧ c ∉ ['.', 'ε', 'λ'] := by
  rw [ofText]
  split
  next empty => simp [empty]
  next d single =>
    rw [Except.ok.injEq, ofChar_eq_symbol_iff, single, List.cons.injEq, and_iff_left rfl]
  next long => simp [long]

theorem readsAsLabel_iff {label : Label} (read : Label.ofText text = .ok label) :
    readsAsLabel alphabet text word ↔ label.Spells word ∧ ∀ c ∈ word, c ∈ alphabet := by
  have reading : (∃ c ∈ alphabet, label.reads c = true ∧ word = [c]) ↔
      (∃ c, label.reads c = true ∧ word = [c]) ∧ ∀ c ∈ word, c ∈ alphabet := by
    constructor
    · rintro ⟨c, mem, reads, rfl⟩
      exact ⟨⟨c, reads, rfl⟩, List.forall_mem_singleton.2 mem⟩
    · rintro ⟨⟨c, reads, rfl⟩, allowed⟩
      exact ⟨c, List.forall_mem_singleton.1 allowed, reads, rfl⟩
  rw [readsAsLabel, read]
  cases label with
  | epsilon => simp +contextual [Label.spells_epsilon]
  | symbol d => simpa [Label.Spells] using reading
  | any => simpa [Label.Spells] using reading

namespace Nfa

variable {doc : Document} {n : Nfa} {names : List String} {rows : List Row} {row : Row}
  {edges : List Edge} {e : Edge} {index p q : Nat} {name source : String}

/-! ## Transitions -/

structure Describes (names : List String) (row : Row) (e : Edge) : Prop where
  source : names[e.source]? = some row.source
  label : Label.ofText row.symbol = .ok e.label
  target : names[e.target]? = some row.target

theorem describes_of_readRow (nodup : names.Nodup) (ok : readRow names index row = .ok e) :
    Describes names row e := by
  rw [readRow] at ok
  split at ok
  next => cases ok
  next =>
    cases read : Label.ofText row.symbol with
    | error fault =>
        rw [read] at ok
        cases ok
    | ok label =>
        rw [read] at ok
        cases from? : names.idxOf? row.source with
        | none =>
            rw [from?] at ok
            cases ok
        | some p =>
            cases to? : names.idxOf? row.target with
            | none =>
                rw [from?, to?] at ok
                cases ok
            | some q =>
                rw [from?, to?] at ok
                obtain rfl := Except.ok.inj ok
                exact ⟨(Distinct.idxOf?_eq_some_iff nodup).1 from?, read,
                  (Distinct.idxOf?_eq_some_iff nodup).1 to?⟩

theorem describes_of_readRows (nodup : names.Nodup) (ok : readRows names index rows = .ok edges) :
    List.Forall₂ (Describes names) rows edges := by
  induction rows generalizing index edges with
  | nil =>
      obtain rfl := Except.ok.inj ok
      exact .nil
  | cons row rest ih =>
      rw [readRows] at ok
      split at ok
      next => cases ok
      next e first =>
        split at ok
        next => cases ok
        next others after =>
          obtain rfl := Except.ok.inj ok
          exact .cons (describes_of_readRow nodup first) (ih after)

theorem exists_describes (each : List.Forall₂ (Describes names) rows edges) :
    (∀ row ∈ rows, ∃ e ∈ edges, Describes names row e) ∧
      ∀ e ∈ edges, ∃ row ∈ rows, Describes names row e := by
  induction each with
  | nil => exact ⟨by simp, by simp⟩
  | cons first _ ih =>
      obtain ⟨forward, backward⟩ := ih
      refine ⟨List.forall_mem_cons.2 ⟨⟨_, List.mem_cons_self, first⟩, fun row mem => ?_⟩,
        List.forall_mem_cons.2 ⟨⟨_, List.mem_cons_self, first⟩, fun e edge => ?_⟩⟩
      · obtain ⟨e, edge, described⟩ := forward row mem
        exact ⟨e, List.mem_cons_of_mem _ edge, described⟩
      · obtain ⟨row, mem, described⟩ := backward e edge
        exact ⟨row, List.mem_cons_of_mem _ mem, described⟩

/-! ## Reading a table -/

theorem foldl_addSymbol (symbols : List Char) (n : Nfa) :
    (symbols.foldl addSymbol n).size = n.size ∧ (symbols.foldl addSymbol n).edges = n.edges ∧
      (symbols.foldl addSymbol n).accepting = n.accepting ∧
      ∀ c, c ∈ (symbols.foldl addSymbol n).alphabet ↔ c ∈ n.alphabet ∨ c ∈ symbols := by
  induction symbols generalizing n with
  | nil => exact ⟨rfl, rfl, rfl, by simp⟩
  | cons d rest ih =>
      obtain ⟨size, edges, accepting, alphabet⟩ := ih (n.addSymbol d)
      refine ⟨size, edges, accepting, fun c => ?_⟩
      rw [List.foldl_cons, alphabet, addSymbol, OrderedSet.mem_insert, List.mem_cons,
        or_comm (a := c = d), or_assoc]

theorem WellFormed.addSymbols (wf : WellFormed n) (symbols : List Char) :
    WellFormed (symbols.foldl Nfa.addSymbol n) := by
  induction symbols generalizing n with
  | nil => exact wf
  | cons d rest ih => exact ih (wf.addSymbol d)

theorem mem_listedSymbols :
    c ∈ listedSymbols doc ↔ c ∉ ['.', 'ε', 'λ'] ∧ ∃ entry ∈ doc.alphabet, entry.toList = [c] := by
  have entry : ∀ text, symbolOfText? text = some c ↔
      text.toList = [c] ∧ c ∉ ['.', 'ε', 'λ'] := by
    intro text
    rw [← Label.ofText_eq_symbol_iff, symbolOfText?]
    cases Label.ofText text with
    | error fault => simp
    | ok label => cases label <;> simp [Label.symbol?]
  simp only [listedSymbols, List.mem_filterMap, entry]
  constructor
  · rintro ⟨text, mem, single, plain⟩
    exact ⟨plain, text, mem, single⟩
  · rintro ⟨plain, text, mem, single⟩
    exact ⟨text, mem, single, plain⟩

def stateNames (doc : Document) : List String := Distinct.ofList (doc.start :: doc.states)

theorem nodup_stateNames (doc : Document) : (stateNames doc).Nodup := Distinct.nodup_ofList _

theorem start_stateNames (doc : Document) : (stateNames doc)[0]? = some doc.start := by
  rw [stateNames, Distinct.ofList_cons, ← List.head?_eq_getElem?]
  exact Distinct.head?_foldl_add _ _ []

theorem unique_position (i j : Nat) (here : (stateNames doc)[i]? = some name)
    (there : (stateNames doc)[j]? = some name) : i = j :=
  (List.getElem?_inj (List.getElem?_eq_some_iff.1 here).1 (nodup_stateNames doc)).1
    (here.trans there.symm)

theorem mem_stateNames (mem : name ∈ doc.states) : name ∈ stateNames doc :=
  Distinct.mem_ofList.2 (List.mem_cons_of_mem doc.start mem)

theorem ofDocument_ok (read : ofDocument doc = .ok n) :
    (∀ name ∈ doc.accepting, name ∈ stateNames doc) ∧
      ∃ edges, readRows (stateNames doc) 0 doc.transitions = .ok edges ∧
        n = (listedSymbols doc).foldl addSymbol (ofEdges (stateNames doc).length edges
          (doc.accepting.map (stateNames doc).idxOf)) := by
  rw [ofDocument] at read
  split at read
  next => cases read
  next =>
    split at read
    next => cases read
    next =>
      split at read
      next => cases read
      next =>
        split at read
        next => cases read
        next known =>
          refine ⟨fun name mem => mem_stateNames ?_, ?_⟩
          · simpa using List.find?_eq_none.1 known name mem
          · dsimp only at read
            split at read
            next => cases read
            next edges rows => exact ⟨edges, rows, (Except.ok.inj read).symm⟩

structure ReadFrom (doc : Document) (n : Nfa) : Prop where
  wellFormed : WellFormed n
  edges : List.Forall₂ (Describes (stateNames doc)) doc.transitions n.edges
  isAccepting : ∀ q, n.isAccepting q = true ↔
    ∃ name ∈ doc.accepting, (stateNames doc)[q]? = some name
  mem_alphabet : ∀ c, c ∈ n.alphabet ↔ doc.Names c

theorem wellFormed_ofEdges {accepting : List Nat}
    (each : List.Forall₂ (Describes names) rows edges) (pos : 0 < names.length)
    (inside : ∀ q ∈ accepting, q < names.length) :
    WellFormed (ofEdges names.length edges accepting) where
  size_pos := pos
  ends e edge := by
    obtain ⟨row, -, described⟩ := (exists_describes each).2 e edge
    exact ⟨(List.getElem?_eq_some_iff.1 described.source).1,
      (List.getElem?_eq_some_iff.1 described.target).1⟩
  accepting q mem := inside q ((OrderedSet.mem_ofList q _).1 mem)
  increasing := OrderedSet.increasing_ofList _
  symbols e edge c names := by
    rw [ofEdges, OrderedSet.mem_ofList, List.mem_filterMap]
    exact ⟨e, edge, names⟩

theorem exists_symbol_iff (each : List.Forall₂ (Describes names) rows edges) :
    (∃ e ∈ edges, e.label.symbol? = some c) ↔
      c ∉ ['.', 'ε', 'λ'] ∧ ∃ row ∈ rows, row.symbol.toList = [c] := by
  have symbol : ∀ {label : Label}, label.symbol? = some c ↔ label = .symbol c := by
    intro label
    cases label <;> simp [Label.symbol?]
  obtain ⟨forward, backward⟩ := exists_describes each
  constructor
  · rintro ⟨e, edge, names⟩
    obtain ⟨row, mem, described⟩ := backward e edge
    have label := described.label
    rw [symbol.1 names, Label.ofText_eq_symbol_iff] at label
    exact ⟨label.2, row, mem, label.1⟩
  · rintro ⟨plain, row, mem, single⟩
    obtain ⟨e, edge, described⟩ := forward row mem
    have label := described.label.symm.trans (Label.ofText_eq_symbol_iff.2 ⟨single, plain⟩)
    exact ⟨e, edge, symbol.2 (Except.ok.inj label)⟩

theorem readFrom_ofDocument (read : ofDocument doc = .ok n) : ReadFrom doc n := by
  obtain ⟨known, edges, rows, rfl⟩ := ofDocument_ok read
  have nodup := nodup_stateNames doc
  have each := describes_of_readRows nodup rows
  obtain ⟨-, sameEdges, sameAccepting, alphabet⟩ := foldl_addSymbol (listedSymbols doc)
    (ofEdges (stateNames doc).length edges (doc.accepting.map (stateNames doc).idxOf))
  refine ⟨WellFormed.addSymbols (wellFormed_ofEdges each ?_ ?_) _, sameEdges ▸ each,
    fun q => ?_, fun c => ?_⟩
  · exact (List.getElem?_eq_some_iff.1 (start_stateNames doc)).1
  · simp only [List.mem_map]
    rintro q ⟨name, mem, rfl⟩
    exact List.idxOf_lt_length_of_mem (known name mem)
  · rw [isAccepting, List.contains_iff_mem, sameAccepting, ofEdges, OrderedSet.mem_ofList,
      List.mem_map]
    refine exists_congr fun name => and_congr_right fun mem => ?_
    exact Distinct.idxOf_eq_iff nodup (known name mem)
  · rw [alphabet, mem_listedSymbols, ofEdges, OrderedSet.mem_ofList, List.mem_filterMap,
      exists_symbol_iff each, ← and_or_left, Document.Names]

namespace ReadFrom

theorem path_of_rows (h : ReadFrom doc n) (there : (stateNames doc)[p]? = some source)
    (path : Row.Path (readsAsLabel alphabet) doc.transitions source word name) :
    (∃ q, Path n.edges p word q ∧ (stateNames doc)[q]? = some name) ∧
      ∀ c ∈ word, c ∈ alphabet := by
  induction path generalizing p with
  | stay state => exact ⟨⟨p, .stay p, there⟩, by simp⟩
  | @follow row u v state mem reads _ ih =>
      obtain ⟨e, edge, described⟩ := (exists_describes h.edges).1 row mem
      obtain rfl := unique_position p e.source there described.source
      obtain ⟨spells, allowed⟩ := (readsAsLabel_iff described.label).1 reads
      obtain ⟨⟨q, onward, named⟩, rest⟩ := ih described.target
      exact ⟨⟨q, .follow edge spells onward, named⟩,
        fun c mem => (List.mem_append.1 mem).elim (allowed c) (rest c)⟩

theorem follow_row (h : ReadFrom doc n) {u v : List Char} (edge : e ∈ n.edges)
    (spells : e.label.Spells u) (allowed : ∀ c ∈ u, c ∈ alphabet)
    (there : (stateNames doc)[e.source]? = some source)
    (onward : ∀ target, (stateNames doc)[e.target]? = some target →
      Row.Path (readsAsLabel alphabet) doc.transitions target v name) :
    Row.Path (readsAsLabel alphabet) doc.transitions source (u ++ v) name := by
  obtain ⟨row, mem, described⟩ := (exists_describes h.edges).2 e edge
  obtain rfl : row.source = source := Option.some.inj (described.source.symm.trans there)
  have reads := (readsAsLabel_iff described.label).2 ⟨spells, allowed⟩
  exact .follow mem reads (onward row.target described.target)

theorem rows_of_path (h : ReadFrom doc n) (path : Path n.edges p word q)
    (there : (stateNames doc)[p]? = some source) (named : (stateNames doc)[q]? = some name)
    (allowed : ∀ c ∈ word, c ∈ alphabet) :
    Row.Path (readsAsLabel alphabet) doc.transitions source word name := by
  induction path generalizing source with
  | stay =>
      obtain rfl : source = name := Option.some.inj (there.symm.trans named)
      exact .stay _
  | silent edge _ ih =>
      exact h.follow_row (u := []) edge (.inl ⟨rfl, rfl⟩) (by simp) there
        fun target there => ih there named allowed
  | @read p q r label c w edge reads _ ih =>
      obtain ⟨first, rest⟩ := List.forall_mem_cons.1 allowed
      exact h.follow_row (u := [c]) edge (.inr ⟨c, reads, rfl⟩) (by simpa using first) there
        fun target there => ih there named rest

theorem accepts_iff (h : ReadFrom doc n) :
    doc.Accepts (readsAsLabel alphabet) word ↔
      n.accepts word = true ∧ ∀ c ∈ word, c ∈ alphabet := by
  rw [h.wellFormed.accepts_iff_hasAcceptingPath]
  constructor
  · rintro ⟨name, accepting, path⟩
    obtain ⟨⟨q, onward, named⟩, allowed⟩ := h.path_of_rows (start_stateNames doc) path
    exact ⟨⟨q, (h.isAccepting q).2 ⟨name, accepting, named⟩, onward⟩, allowed⟩
  · rintro ⟨⟨q, marked, path⟩, allowed⟩
    obtain ⟨name, accepting, named⟩ := (h.isAccepting q).1 marked
    exact ⟨name, accepting, h.rows_of_path path (start_stateNames doc) named allowed⟩

end ReadFrom

end Nfa

end RegularLanguages
