import Mathlib.Data.Fintype.EquivFin
import RegularLanguages.Dfa.Indexed
import RegularLanguages.Proofs.Dfa.Minimize
import RegularLanguages.Proofs.Dfa.Reading

/-! # Parts in another order

The order in which a table lists its entries decides which fault is reported, but
not whether there is one, and an automaton is written alike from any order
(`order_of_entries_is_immaterial`).  What is written loses nothing but that order:
automata that are written alike have the same parts by name, and the states with
the same names make them the same up to numbering
(`document_eq_iff_exists_reordering`). -/
set_option autoImplicit false
namespace RegularLanguages.Dfa

variable {d m : Dfa} {t u : Table} {f : Nat → Nat} {p q : Nat} {c : Char}

/-! ## Tables -/

namespace Table

/-- The tables have the same start and list the same states, accepting states and
transitions, in any order and any number of times. -/
structure SameEntries (t u : Table) : Prop where
  start : t.start = u.start
  states : ∀ id, id ∈ t.states ↔ id ∈ u.states
  accepting : ∀ id, id ∈ t.accepting ↔ id ∈ u.accepting
  transitions : ∀ row, row ∈ t.transitions ↔ row ∈ u.transitions

theorem SameEntries.symm (same : SameEntries t u) : SameEntries u t where
  start := same.start.symm
  states id := (same.states id).symm
  accepting id := (same.accepting id).symm
  transitions row := (same.transitions row).symm

theorem SameEntries.proper (same : SameEntries t u) (proper : t.Proper) : u.Proper where
  start := by
    obtain ⟨start, listed, given, nonempty⟩ := proper.start
    exact ⟨start, (same.states start).1 listed, same.start ▸ given, nonempty⟩
  accepting id mem := (same.states id).1 (proper.accepting id ((same.accepting id).2 mem))
  rows row mem := by
    have ends := proper.rows row ((same.transitions row).2 mem)
    exact
      { source_mem := (same.states _).1 ends.source_mem
        source_ne := ends.source_ne
        target_mem := (same.states _).1 ends.target_mem
        target_ne := ends.target_ne
        symbol := ends.symbol }
  unambiguous row mem other mem' :=
    proper.unambiguous row ((same.transitions row).2 mem) other ((same.transitions other).2 mem')

/-- Whether a table has a fault does not depend on the order of its entries. -/
theorem SameEntries.exists_ofTable (same : SameEntries t u) (read : ∃ d, ofTable t = .ok d) :
    ∃ m, ofTable u = .ok m := by
  obtain ⟨d, ok⟩ := read
  exact Dfa.exists_ofTable (same.proper (readFrom_ofTable ok).1)

theorem SameEntries.sameParts (same : SameEntries t u) (ok : ofTable t = .ok d)
    (ok' : ofTable u = .ok m) : SameParts d m := by
  obtain ⟨proper, h⟩ := readFrom_ofTable ok
  obtain ⟨proper', h'⟩ := readFrom_ofTable ok'
  refine ⟨?_, fun id => ?_, fun id => ?_, fun row => ?_, ?_⟩
  · rw [start_ids h, start_ids h', same.start]
  · rw [mem_ids_iff proper h, mem_ids_iff proper' h', same.states]
  · rw [mem_accepting_document, mem_accepting_document, h.accepting, h'.accepting,
      same.accepting]
  · rw [mem_transitions_document, mem_transitions_document, h.rows, h'.rows, same.transitions]
  · apply h.wellFormed.increasing.ext h'.wellFormed.increasing
    intro c
    simp only [h.alphabet, h'.alphabet, same.transitions]

theorem SameEntries.document_eq (same : SameEntries t u) (ok : ofTable t = .ok d)
    (ok' : ofTable u = .ok m) : d.document = m.document :=
  (document_eq_iff (wellFormed_ofTable ok) (wellFormed_ofTable ok')).2 (same.sameParts ok ok')

end Table

/-! ## Documents -/

def NamedEdge.row (e : NamedEdge) : Row := ⟨e.source, e.symbol.toString, e.target⟩

theorem NamedEdge.row_injective : Function.Injective NamedEdge.row := by
  intro e f same
  cases e
  cases f
  simpa [row] using same

structure Rearranged (d m : Dfa) : Prop where
  start : d.idOf 0 = m.idOf 0
  ids : d.ids.Perm m.ids
  accepting : (d.acceptingStates.map d.idOf).Perm (m.acceptingStates.map m.idOf)
  transitions : (d.transitions.map d.named).Perm (m.transitions.map m.named)
  alphabet : d.alphabet = m.alphabet

theorem rearranged_of_document_eq (same : d.document = m.document) : Rearranged d m where
  start := congrArg Document.start same
  ids := perm_of_mergeSort_eq (congrArg Document.states same)
  accepting := perm_of_mergeSort_eq (congrArg Document.accepting same)
  transitions := by
    have rows : (d.transitions.map d.row).Perm (m.transitions.map m.row) :=
      perm_of_mergeSort_eq (congrArg Document.transitions same)
    apply (List.map_perm_map_iff NamedEdge.row_injective).1
    rw [List.map_map, List.map_map]
    exact rows
  alphabet := by
    have injective : Function.Injective Char.toString := fun a b => by simp
    exact injective.list_map (congrArg Document.alphabet same)

/-- Neither the order of the entries of a table nor their number matters: another
table with the same entries is read if it is, as an automaton that is written
alike and accepts the same words.  Conversely automata that are written alike have
the same parts by name and accept the same words. -/
theorem order_of_entries_is_immaterial :
    (∀ t u : Table, t.SameEntries u →
      ((∃ d, ofTable t = .ok d) ↔ ∃ m, ofTable u = .ok m) ∧
      ∀ d m, ofTable t = .ok d → ofTable u = .ok m →
        d.document = m.document ∧ ∀ word, d.accepts word = m.accepts word) ∧
    ∀ d m, Built d → Built m → d.document = m.document →
      Rearranged d m ∧ ∀ word, d.accepts word = m.accepts word := by
  constructor
  · intro t u same
    refine ⟨⟨same.exists_ofTable, same.symm.exists_ofTable⟩, ?_⟩
    intro d m ok ok'
    have written := same.document_eq ok ok'
    exact ⟨written, accepts_of_document_eq (wellFormed_ofTable ok) (wellFormed_ofTable ok') written⟩
  · intro d m built built' written
    exact ⟨rearranged_of_document_eq written,
      accepts_of_document_eq built.wellFormed built'.wellFormed written⟩

def Table.ascending : Table where
  states := ["s", "p", "q"]
  start := some "s"
  accepting := ["p", "q"]
  transitions := [⟨"s", "a", "p"⟩, ⟨"s", "b", "q"⟩]

def Table.descending : Table where
  states := ["q", "p", "s", "q"]
  start := some "s"
  accepting := ["q", "p", "q"]
  transitions := [⟨"s", "b", "q"⟩, ⟨"s", "a", "p"⟩, ⟨"s", "b", "q"⟩]

/-- The states come in another order, which is not written. -/
theorem order_of_entries_is_immaterial_descending :
    Table.ascending.SameEntries Table.descending ∧
      ∃ d m, ofTable Table.ascending = .ok d ∧ ofTable Table.descending = .ok m ∧
        Built d ∧ Built m ∧ d.ids = ["s", "p", "q"] ∧ m.ids = ["s", "q", "p"] ∧
        d.document = m.document ∧ Rearranged d m ∧ ∀ word, d.accepts word = m.accepts word := by
  obtain ⟨tables, documents⟩ := order_of_entries_is_immaterial
  have same : Table.ascending.SameEntries Table.descending := by
    constructor
    · rfl
    · intro id
      simp only [Table.ascending, Table.descending, List.mem_cons, List.not_mem_nil]
      tauto
    · intro id
      simp only [Table.ascending, Table.descending, List.mem_cons, List.not_mem_nil]
      tauto
    · intro row
      simp only [Table.ascending, Table.descending, List.mem_cons, List.not_mem_nil]
      tauto
  obtain ⟨d, ok⟩ : ∃ d, ofTable Table.ascending = .ok d := ⟨_, rfl⟩
  obtain ⟨m, ok'⟩ := (tables _ _ same).1.1 ⟨d, ok⟩
  have ids : (ofTable Table.ascending).map ids = .ok ["s", "p", "q"] := rfl
  have ids' : (ofTable Table.descending).map Dfa.ids = .ok ["s", "q", "p"] := rfl
  rw [ok] at ids
  rw [ok'] at ids'
  obtain ⟨written, -⟩ := (tables _ _ same).2 d m ok ok'
  have parts := documents d m (.ofTable ok) (.ofTable ok') written
  exact ⟨same, d, m, ok, ok', .ofTable ok, .ofTable ok', Except.ok.inj ids, Except.ok.inj ids',
    written, parts⟩

/-! ## States with the same name -/

/-- A renumbering that keeps the names, of automata over one alphabet. -/
structure Reordering (d m : Dfa) (f : Nat → Nat) : Prop where
  renumbering : Renumbering d m f
  named : ∀ q < d.size, m.idOf (f q) = d.idOf q
  alphabet : m.alphabet = d.alphabet

theorem Renumbering.morphism (h : Renumbering d m f) : Morphism d m f where
  start := h.start
  accepting := h.accepting
  successor := h.successor

theorem Morphism.renumbering (keeps : Morphism d m f) (inside : ∀ q < d.size, f q < m.size)
    (injective : ∀ p < d.size, ∀ q < d.size, f p = f q → p = q)
    (onto : ∀ i < m.size, ∃ q < d.size, f q = i) : Renumbering d m f where
  size := by
    -- No state of the one is met twice, and none of the other is left out.
    apply Nat.le_antisymm
    · apply size_le_of_partners (R := fun i q => f q = i) onto
      intro i _ j _ q first second
      exact first.symm.trans second
    · apply size_le_of_partners (R := fun q i => f q = i)
      · intro q lt
        exact ⟨f q, inside q lt, rfl⟩
      · intro p ltP q ltQ i first second
        exact injective p ltP q ltQ (first.trans second.symm)
  inside := inside
  injective := injective
  start := keeps.start
  accepting := keeps.accepting
  successor := keeps.successor

theorem idOf_mem_accepting_iff (wf : WellFormed d) (lt : q < d.size) :
    d.idOf q ∈ d.document.accepting ↔ d.isAccepting q = true := by
  rw [mem_accepting_document]
  constructor
  · intro ⟨p, ltP, accepting, same⟩
    rwa [wf.idOf_inj ltP lt same] at accepting
  · intro accepting
    exact ⟨q, lt, accepting, rfl⟩

theorem row_mem_transitions_iff (wf : WellFormed d) (ltP : p < d.size) (ltQ : q < d.size) :
    d.row ⟨p, c, q⟩ ∈ d.document.transitions ↔ d.successor p c = some q := by
  rw [mem_transitions_document, wf.det.successor_eq_some_iff]
  constructor
  · intro ⟨e, edge, same⟩
    obtain ⟨sources, symbols, targets⟩ := Row.mk.inj same
    have source := wf.idOf_inj (wf.ends e edge).1 ltP sources
    have target := wf.idOf_inj (wf.ends e edge).2 ltQ targets
    have symbol : e.symbol = c := by simpa using symbols
    rw [← source, ← symbol, ← target]
    exact edge
  · intro edge
    exact ⟨_, edge, rfl⟩

/-- The state with the name that a state of another automaton has. -/
def namesake (d m : Dfa) (q : Nat) : Nat := m.indexOf (d.idOf q)

namespace SameParts

theorem idOf_namesake (same : SameParts d m) (lt : q < d.size) :
    m.idOf (namesake d m q) = d.idOf q := by
  have known : d.idOf q ∈ m.ids := (same.ids _).1 (mem_ids.2 ⟨q, lt, rfl⟩)
  rw [namesake, idOf_eq, ids_indexOf known, Option.getD_some]

theorem namesake_lt (wf' : WellFormed m) (q : Nat) : namesake d m q < m.size := indexOf_lt wf' _

theorem namesake_eq_iff (same : SameParts d m) (wf' : WellFormed m) (lt : q < d.size)
    (lt' : p < m.size) : namesake d m q = p ↔ m.idOf p = d.idOf q := by
  have named := same.idOf_namesake lt
  constructor
  · intro eq
    rw [← eq, named]
  · intro eq
    exact wf'.idOf_inj (indexOf_lt wf' _) lt' (named.trans eq.symm)

theorem exists_namesake (same : SameParts d m) (wf' : WellFormed m) {i : Nat} (lt : i < m.size) :
    ∃ q < d.size, namesake d m q = i := by
  obtain ⟨q, ltQ, named⟩ := mem_ids.1 ((same.ids _).2 (mem_ids.2 ⟨i, lt, rfl⟩))
  exact ⟨q, ltQ, (same.namesake_eq_iff wf' ltQ lt).2 named.symm⟩

theorem successor_namesake (same : SameParts d m) (wf : WellFormed d) (wf' : WellFormed m)
    (lt : q < d.size) (c : Char) :
    m.successor (namesake d m q) c = (d.successor q c).map (namesake d m) := by
  have leads : ∀ p < d.size, m.successor (namesake d m q) c = some (namesake d m p) ↔
      d.successor q c = some p := by
    intro p ltP
    rw [← row_mem_transitions_iff wf' (namesake_lt wf' q) (namesake_lt wf' p),
      ← row_mem_transitions_iff wf lt ltP, same.rows, row, row, same.idOf_namesake lt,
      same.idOf_namesake ltP]
  apply Option.ext
  intro i
  constructor
  · intro step
    obtain ⟨p, ltP, eq⟩ := same.exists_namesake wf' (wf'.det.successor_lt step)
    subst eq
    rw [(leads p ltP).1 step, Option.map_some]
  · intro step
    obtain ⟨p, onward, eq⟩ := Option.map_eq_some_iff.1 step
    subst eq
    exact (leads p (wf.det.successor_lt onward)).2 onward

theorem reordering (same : SameParts d m) (wf : WellFormed d) (wf' : WellFormed m) :
    Reordering d m (namesake d m) where
  renumbering := by
    apply Morphism.renumbering
    · constructor
      · exact (same.namesake_eq_iff wf' wf.size_pos wf'.size_pos).2 same.start.symm
      · intro q lt
        rw [Bool.eq_iff_iff, ← idOf_mem_accepting_iff wf' (namesake_lt wf' q),
          ← idOf_mem_accepting_iff wf lt, same.accepting, same.idOf_namesake lt]
      · intro q lt c
        exact same.successor_namesake wf wf' lt c
    · intro q _
      exact namesake_lt wf' q
    · intro p ltP q ltQ eq
      apply wf.idOf_inj ltP ltQ
      rw [← same.idOf_namesake ltP, eq, same.idOf_namesake ltQ]
    · intro i lt
      exact same.exists_namesake wf' lt
  named q lt := same.idOf_namesake lt
  alphabet := same.alphabet.symm

end SameParts

theorem Renumbering.exists_state (h : Renumbering d m f) {i : Nat} (lt : i < m.size) :
    ∃ q < d.size, f q = i := by
  let state : Fin d.size → Fin m.size := fun q => ⟨f q, h.inside q q.isLt⟩
  have injective : Function.Injective state := by
    intro p q eq
    exact Fin.ext (h.injective p p.isLt q q.isLt (congrArg Fin.val eq))
  have card : Fintype.card (Fin d.size) = Fintype.card (Fin m.size) := by
    simp [h.size]
  obtain ⟨q, eq⟩ := ((Fintype.bijective_iff_injective_and_card state).2 ⟨injective, card⟩).2 ⟨i, lt⟩
  exact ⟨q, q.isLt, congrArg Fin.val eq⟩

namespace Reordering

theorem exists_state_iff {P : Nat → Prop} (h : Reordering d m f) :
    (∃ i < m.size, P i) ↔ ∃ q < d.size, P (f q) := by
  constructor
  · intro ⟨i, lt, holds⟩
    obtain ⟨q, ltQ, eq⟩ := h.renumbering.exists_state lt
    subst eq
    exact ⟨q, ltQ, holds⟩
  · intro ⟨q, lt, holds⟩
    exact ⟨f q, h.renumbering.inside q lt, holds⟩

theorem mem_edges_iff (h : Reordering d m f) (wf : WellFormed d) (wf' : WellFormed m)
    (ltP : p < d.size) (ltQ : q < d.size) : ⟨f p, c, f q⟩ ∈ m.edges ↔ ⟨p, c, q⟩ ∈ d.edges := by
  rw [← wf'.det.successor_eq_some_iff, ← wf.det.successor_eq_some_iff,
    h.renumbering.successor p ltP, Option.map_eq_some_iff]
  constructor
  · intro ⟨r, step, eq⟩
    rw [step, h.renumbering.injective r (wf.det.successor_lt step) q ltQ eq]
  · intro step
    exact ⟨q, step, rfl⟩

theorem rows_iff (h : Reordering d m f) (wf : WellFormed d) (wf' : WellFormed m) (row : Row) :
    (∃ e ∈ m.edges, m.row e = row) ↔ ∃ e ∈ d.edges, d.row e = row := by
  constructor
  · intro ⟨⟨i, c, j⟩, edge, eq⟩
    obtain ⟨p, ltP, source⟩ := h.renumbering.exists_state (wf'.ends _ edge).1
    obtain ⟨q, ltQ, target⟩ := h.renumbering.exists_state (wf'.ends _ edge).2
    dsimp only at source target
    subst source target eq
    refine ⟨⟨p, c, q⟩, (h.mem_edges_iff wf wf' ltP ltQ).1 edge, ?_⟩
    simp only [Dfa.row, h.named p ltP, h.named q ltQ]
  · intro ⟨⟨p, c, q⟩, edge, eq⟩
    obtain ⟨ltP, ltQ⟩ := wf.ends _ edge
    subst eq
    refine ⟨⟨f p, c, f q⟩, (h.mem_edges_iff wf wf' ltP ltQ).2 edge, ?_⟩
    simp only [Dfa.row, h.named p ltP, h.named q ltQ]

theorem sameParts (h : Reordering d m f) (wf : WellFormed d) (wf' : WellFormed m) :
    SameParts d m where
  start := by
    have named := h.named 0 wf.size_pos
    rw [h.renumbering.start] at named
    exact named.symm
  ids id := by
    rw [mem_ids, mem_ids, h.exists_state_iff]
    apply exists_congr
    intro q
    apply and_congr_right
    intro lt
    rw [h.named q lt]
  accepting id := by
    rw [mem_accepting_document, mem_accepting_document, h.exists_state_iff]
    apply exists_congr
    intro q
    apply and_congr_right
    intro lt
    rw [h.named q lt, h.renumbering.accepting q lt]
  rows row := by
    rw [mem_transitions_document, mem_transitions_document, h.rows_iff wf wf']
  alphabet := h.alphabet.symm

end Reordering

/-- Automata are written alike exactly if a renumbering that keeps the names takes
the one to the other. -/
theorem document_eq_iff_exists_reordering (wf : WellFormed d) (wf' : WellFormed m) :
    d.document = m.document ↔ ∃ f, Reordering d m f := by
  rw [document_eq_iff wf wf']
  constructor
  · intro same
    exact ⟨namesake d m, same.reordering wf wf'⟩
  · intro ⟨f, h⟩
    exact h.sameParts wf wf'

end RegularLanguages.Dfa
