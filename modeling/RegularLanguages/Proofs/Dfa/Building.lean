import RegularLanguages.Proofs.Dfa.Run
import RegularLanguages.Proofs.Distinct

/-! # What the operations on an automaton keep

Names of states stay different, so a name finds its state.  Adding states and
marking them keeps an automaton well-formed, and so does adding transitions
between its states.  Where that succeeds exactly the given edges have come to it
(`extended_addTransitions`), and it succeeds if the old and the new edges agree
on where a character leads (`exists_addTransitions`). -/
set_option autoImplicit false
namespace RegularLanguages.Dfa

variable {d m : Dfa} {e : Edge} {added : List Edge} {id : String} {p q : Nat}

/-! ## Names -/

def ids (d : Dfa) : List String := d.states.map (·.id)

theorem length_ids (d : Dfa) : d.ids.length = d.size := List.length_map _

theorem ids_getElem? (lt : q < d.size) : d.ids[q]? = some (d.idOf q) := by
  rw [ids, List.getElem?_map, idOf, List.getElem?_eq_getElem lt]
  rfl

theorem ids_eq_map_range (d : Dfa) : d.ids = (List.range d.size).map d.idOf := by
  apply List.ext_getElem
  · rw [length_ids, List.length_map, List.length_range]
  · intro q lt _
    rw [List.getElem_map, List.getElem_range]
    have there := ids_getElem? (d := d) (length_ids d ▸ lt)
    rw [List.getElem?_eq_getElem lt] at there
    exact Option.some.inj there

theorem mem_ids {id : String} : id ∈ d.ids ↔ ∃ q < d.size, d.idOf q = id := by
  rw [List.mem_iff_getElem?]
  constructor
  · rintro ⟨q, there⟩
    have lt : q < d.size := length_ids d ▸ (List.getElem?_eq_some_iff.1 there).1
    exact ⟨q, lt, Option.some.inj ((ids_getElem? lt).symm.trans there)⟩
  · rintro ⟨q, lt, rfl⟩
    exact ⟨q, ids_getElem? lt⟩

theorem state?_eq (d : Dfa) (id : String) : d.state? id = d.ids.idxOf? id := by
  rw [state?, ids, List.idxOf?, List.findIdx?_map]
  rfl

theorem ids_of_state? (found : d.state? id = some q) : d.ids[q]? = some id := by
  rw [state?_eq] at found
  obtain ⟨lt, same, -⟩ := List.idxOf?_eq_some_iff.1 found
  exact List.getElem?_eq_some_iff.2 ⟨lt, same⟩

theorem state?_lt (found : d.state? id = some q) : q < d.size :=
  length_ids d ▸ (List.getElem?_eq_some_iff.1 (ids_of_state? found)).1

theorem indexOf_lt (wf : WellFormed d) (id : String) : d.indexOf id < d.size := by
  rw [indexOf]
  cases found : d.state? id with
  | some q => exact state?_lt found
  | none => exact wf.size_pos

theorem state?_isSome_iff : (d.state? id).isSome = true ↔ id ∈ d.ids := by
  rw [state?_eq, List.isSome_idxOf?]

theorem state?_eq_some_iff (nodup : d.ids.Nodup) : d.state? id = some q ↔ d.ids[q]? = some id := by
  rw [state?_eq, Distinct.idxOf?_eq_some_iff nodup]

theorem state?_of_ids (nodup : d.ids.Nodup) (there : d.ids[q]? = some id) :
    d.state? id = some q := (state?_eq_some_iff nodup).2 there

/-! ## States -/

theorem ids_addState (d : Dfa) (id : String) : (d.addState id).ids = Distinct.add d.ids id := by
  rw [addState, Distinct.add]
  cases found : d.state? id with
  | some q =>
      rw [if_pos (state?_isSome_iff.1 (found ▸ rfl))]
  | none =>
      rw [if_neg fun mem => by simpa [found] using state?_isSome_iff.2 mem]
      simp [ids]

theorem size_le_addState (d : Dfa) (id : String) : d.size ≤ (d.addState id).size := by
  rw [← length_ids, ← length_ids, ids_addState]
  exact Distinct.length_le_add d.ids id

theorem edges_addState (d : Dfa) (id : String) : (d.addState id).edges = d.edges := by
  rw [addState]
  split <;> rfl

theorem alphabet_addState (d : Dfa) (id : String) : (d.addState id).alphabet = d.alphabet := by
  rw [addState]
  split <;> rfl

theorem WellFormed.nodup_ids (wf : WellFormed d) : d.ids.Nodup := wf.ids_nodup

theorem idOf_inj_of_nodup (nodup : d.ids.Nodup) (ltP : p < d.size) (ltQ : q < d.size)
    (same : d.idOf p = d.idOf q) : p = q := by
  have there := ids_getElem? ltP
  rw [same, ← ids_getElem? ltQ] at there
  exact (List.getElem?_inj (length_ids d ▸ ltP) nodup).1 there

theorem WellFormed.idOf_inj (wf : WellFormed d) (ltP : p < d.size) (ltQ : q < d.size)
    (same : d.idOf p = d.idOf q) : p = q := idOf_inj_of_nodup wf.nodup_ids ltP ltQ same

theorem isAccepting_addState (d : Dfa) (id : String) (q : Nat) :
    (d.addState id).isAccepting q = d.isAccepting q := by
  rw [addState]
  split
  next => rfl
  next =>
    rw [isAccepting, isAccepting, List.getElem?_append]
    split
    next => rfl
    next beyond =>
      rw [List.getElem?_eq_none (Nat.le_of_not_lt beyond), List.getElem?_singleton]
      split <;> rfl

theorem WellFormed.addState (wf : WellFormed d) (id : String) : WellFormed (d.addState id) := by
  have grows := size_le_addState d id
  exact
    { size_pos := Nat.lt_of_lt_of_le wf.size_pos grows
      ids_nodup := by
        have nodup := Distinct.nodup_add wf.nodup_ids id
        rwa [← ids_addState] at nodup
      edges_nodup := by rw [edges_addState]; exact wf.edges_nodup
      ends := by
        rw [edges_addState]
        exact fun e edge => ⟨Nat.lt_of_lt_of_le (wf.ends e edge).1 grows,
          Nat.lt_of_lt_of_le (wf.ends e edge).2 grows⟩
      deterministic := by rw [edges_addState]; exact wf.deterministic
      increasing := by rw [alphabet_addState]; exact wf.increasing
      symbols := by rw [edges_addState, alphabet_addState]; exact wf.symbols }

theorem foldl_addState (names : List String) (d : Dfa) :
    (names.foldl Dfa.addState d).ids = names.foldl Distinct.add d.ids ∧
      (names.foldl Dfa.addState d).edges = d.edges ∧
      (names.foldl Dfa.addState d).alphabet = d.alphabet ∧
      ∀ q, (names.foldl Dfa.addState d).isAccepting q = d.isAccepting q := by
  induction names generalizing d with
  | nil => exact ⟨rfl, rfl, rfl, fun _ => rfl⟩
  | cons name rest ih =>
      obtain ⟨ids, edges, alphabet, accepting⟩ := ih (d.addState name)
      rw [List.foldl_cons, List.foldl_cons, ids, edges, alphabet, ids_addState, edges_addState,
        alphabet_addState]
      exact ⟨rfl, rfl, rfl, fun q => (accepting q).trans (isAccepting_addState d name q)⟩

theorem WellFormed.addStates (wf : WellFormed d) (names : List String) :
    WellFormed (names.foldl Dfa.addState d) := by
  induction names generalizing d with
  | nil => exact wf
  | cons name rest ih => exact ih (wf.addState name)

theorem size_setAccepting (d : Dfa) (q : Nat) : (d.setAccepting q).size = d.size :=
  List.length_modify _ _ _

theorem ids_setAccepting (d : Dfa) (q : Nat) : (d.setAccepting q).ids = d.ids := by
  refine List.ext_getElem? fun i => ?_
  simp only [ids, setAccepting, List.getElem?_map, List.getElem?_modify]
  split <;> cases d.states[i]? <;> rfl

theorem isAccepting_setAccepting (d : Dfa) (q p : Nat) :
    (d.setAccepting q).isAccepting p = true ↔ d.isAccepting p = true ∨ p = q ∧ p < d.size := by
  rw [isAccepting, isAccepting, setAccepting, List.getElem?_modify]
  by_cases same : q = p
  · subst same
    by_cases lt : q < d.states.length
    · simp [lt, size]
    · simp [lt, size]
  · simp [same, Ne.symm same]

theorem WellFormed.setAccepting (wf : WellFormed d) (q : Nat) : WellFormed (d.setAccepting q) where
  size_pos := size_setAccepting d q ▸ wf.size_pos
  ids_nodup := by
    have nodup := wf.nodup_ids
    rwa [← ids_setAccepting d q] at nodup
  edges_nodup := wf.edges_nodup
  ends := size_setAccepting d q ▸ wf.ends
  deterministic := wf.deterministic
  increasing := wf.increasing
  symbols := wf.symbols

theorem WellFormed.addSymbol (wf : WellFormed d) (c : Char) : WellFormed (d.addSymbol c) where
  size_pos := wf.size_pos
  ids_nodup := wf.ids_nodup
  edges_nodup := wf.edges_nodup
  ends := wf.ends
  deterministic := wf.deterministic
  increasing := wf.increasing.insert c
  symbols e edge := (OrderedSet.mem_insert c e.symbol d.alphabet).2 (.inr (wf.symbols e edge))

theorem foldl_setAccepting (marks : List Nat) (d : Dfa) :
    (marks.foldl Dfa.setAccepting d).ids = d.ids ∧
      (marks.foldl Dfa.setAccepting d).edges = d.edges ∧
      (marks.foldl Dfa.setAccepting d).alphabet = d.alphabet ∧
      ∀ p, (marks.foldl Dfa.setAccepting d).isAccepting p = true ↔
        d.isAccepting p = true ∨ p ∈ marks ∧ p < d.size := by
  induction marks generalizing d with
  | nil => exact ⟨rfl, rfl, rfl, fun p => by simp⟩
  | cons q rest ih =>
      obtain ⟨ids, edges, alphabet, accepting⟩ := ih (d.setAccepting q)
      rw [List.foldl_cons, ids, edges, alphabet, ids_setAccepting]
      refine ⟨rfl, rfl, rfl, fun p => ?_⟩
      rw [accepting, isAccepting_setAccepting, size_setAccepting, List.mem_cons, or_and_right,
        or_assoc]

theorem WellFormed.setAcceptings (wf : WellFormed d) (marks : List Nat) :
    WellFormed (marks.foldl Dfa.setAccepting d) := by
  induction marks generalizing d with
  | nil => exact wf
  | cons q rest ih => exact ih (wf.setAccepting q)

/-! ## Transitions -/

theorem WellFormed.pairwise_edges (wf : WellFormed d) :
    d.edges.Pairwise fun e f => e.source = f.source → e.symbol ≠ f.symbol := by
  refine wf.edges_nodup.pairwise_of_forall_ne fun e edge f other differ sources symbols => ?_
  have targets := wf.deterministic e edge f other sources symbols
  obtain ⟨p, c, q⟩ := e
  obtain rfl : f = ⟨p, c, q⟩ := by
    dsimp only at sources symbols targets
    rw [sources, symbols, targets]
  exact differ rfl

theorem addSymbol_of_mem {c : Char} (increasing : OrderedSet.Increasing d.alphabet)
    (known : c ∈ d.alphabet) : d.addSymbol c = d := by
  rw [addSymbol, increasing.insert_of_mem known]

theorem addTransition_of_fresh (increasing : OrderedSet.Increasing d.alphabet)
    (known : e.symbol ∈ d.alphabet)
    (fresh : ∀ f ∈ d.edges, e.source = f.source → e.symbol ≠ f.symbol) :
    d.addTransition e = .ok (d.link e) := by
  have undefined : d.successor e.source e.symbol = none := by
    cases leads : d.successor e.source e.symbol with
    | none => rfl
    | some q =>
        exact absurd rfl (fresh ⟨e.source, e.symbol, q⟩ (mem_edges_of_successor leads) rfl)
  rw [addTransition, undefined]
  simp only [addSymbol_of_mem increasing known]

theorem addTransitions_of_fresh (increasing : OrderedSet.Increasing d.alphabet)
    (known : ∀ e ∈ added, e.symbol ∈ d.alphabet)
    (fresh : (added.reverse ++ d.edges).Pairwise fun e f =>
      e.source = f.source → e.symbol ≠ f.symbol) :
    d.addTransitions added = .ok { d with edges := added.reverse ++ d.edges } := by
  induction added generalizing d with
  | nil => rfl
  | cons e rest ih =>
      obtain ⟨first, others⟩ := List.forall_mem_cons.1 known
      rw [List.reverse_cons, List.append_assoc, List.singleton_append] at fresh ⊢
      have differs := (List.pairwise_cons.1 (List.pairwise_append.1 fresh).2.1).1
      rw [addTransitions, addTransition_of_fresh increasing first differs]
      exact ih (d := d.link e) increasing others fresh

structure Extended (d : Dfa) (added : List Edge) (m : Dfa) : Prop where
  wellFormed : WellFormed m
  states : m.states = d.states
  mem_edges : ∀ e, e ∈ m.edges ↔ e ∈ d.edges ∨ e ∈ added
  mem_alphabet : ∀ c, c ∈ m.alphabet ↔ c ∈ d.alphabet ∨ ∃ e ∈ added, e.symbol = c

theorem WellFormed.link (wf : WellFormed d) (source : e.source < d.size)
    (target : e.target < d.size) (undefined : d.successor e.source e.symbol = none) :
    WellFormed ((d.addSymbol e.symbol).link e) := by
  have leadsNowhere : ∀ f ∈ d.edges, f.source = e.source → f.symbol ≠ e.symbol := by
    intro f edge sources symbols
    obtain ⟨t, found⟩ := successor_isSome_of_mem (d := d) (q := e.source) (c := e.symbol)
      (p := f.target) (by rw [← sources, ← symbols]; exact edge)
    rw [undefined] at found
    cases found
  exact
    { size_pos := wf.size_pos
      ids_nodup := wf.ids_nodup
      edges_nodup := List.nodup_cons.2 ⟨fun edge => leadsNowhere e edge rfl rfl, wf.edges_nodup⟩
      ends := List.forall_mem_cons.2 ⟨⟨source, target⟩, wf.ends⟩
      deterministic := by
        intro f edge g other sources symbols
        rcases List.mem_cons.1 edge with rfl | edge
        · rcases List.mem_cons.1 other with rfl | other
          · rfl
          · exact absurd symbols.symm (leadsNowhere g other sources.symm)
        · rcases List.mem_cons.1 other with rfl | other
          · exact absurd symbols (leadsNowhere f edge sources)
          · exact wf.deterministic f edge g other sources symbols
      increasing := wf.increasing.insert e.symbol
      symbols := List.forall_mem_cons.2 ⟨(OrderedSet.mem_insert ..).2 (.inl rfl),
        (wf.addSymbol e.symbol).symbols⟩ }

theorem extended_addTransition (wf : WellFormed d) (source : e.source < d.size)
    (target : e.target < d.size) (ok : d.addTransition e = .ok m) : Extended d [e] m := by
  rw [addTransition] at ok
  cases leads : d.successor e.source e.symbol with
  | some existing =>
      simp only [leads] at ok
      split at ok
      next same =>
        obtain rfl := Except.ok.inj ok
        have edge : e ∈ d.edges := mem_edges_of_successor (same ▸ leads)
        exact
          { wellFormed := wf
            states := rfl
            mem_edges := fun f => by
              rw [List.mem_singleton, or_iff_left_of_imp]
              exact fun eq => eq ▸ edge
            mem_alphabet := fun c => by
              rw [or_iff_left_of_imp]
              rintro ⟨f, mem, rfl⟩
              exact List.mem_singleton.1 mem ▸ wf.symbols e edge }
      next => cases ok
  | none =>
      simp only [leads] at ok
      obtain rfl := Except.ok.inj ok
      exact
        { wellFormed := wf.link source target leads
          states := rfl
          mem_edges := fun f => by
            rw [List.mem_singleton, or_comm]
            exact List.mem_cons
          mem_alphabet := fun c => by
            simp only [List.mem_singleton, exists_eq_left, eq_comm (a := e.symbol)]
            rw [or_comm]
            exact OrderedSet.mem_insert _ _ _ }

/-- Where adding transitions succeeds, the automaton has the old and the given
edges and no others. -/
theorem extended_addTransitions (wf : WellFormed d)
    (ends : ∀ e ∈ added, e.source < d.size ∧ e.target < d.size)
    (ok : d.addTransitions added = .ok m) : Extended d added m := by
  induction added generalizing d with
  | nil =>
      obtain rfl := Except.ok.inj ok
      exact ⟨wf, rfl, by simp, by simp⟩
  | cons e rest ih =>
      rw [addTransitions] at ok
      cases first : d.addTransition e with
      | error conflict =>
          rw [first] at ok
          cases ok
      | ok extended =>
          rw [first] at ok
          have inside := ends e List.mem_cons_self
          have one := extended_addTransition wf inside.1 inside.2 first
          have others := ih one.wellFormed
            (fun f mem => by
              rw [size, one.states]
              exact ends f (List.mem_cons_of_mem e mem)) ok
          exact
            { wellFormed := others.wellFormed
              states := others.states.trans one.states
              mem_edges := fun f => by
                rw [others.mem_edges, one.mem_edges, List.mem_singleton, List.mem_cons, or_assoc]
              mem_alphabet := fun c => by
                rw [others.mem_alphabet, one.mem_alphabet, or_assoc]
                simp only [List.mem_cons, List.not_mem_nil, or_false, or_and_right, exists_or] }

/-- Adding transitions succeeds if the old and the new edges agree on where a
character leads. -/
theorem exists_addTransitions (wf : WellFormed d)
    (ends : ∀ e ∈ added, e.source < d.size ∧ e.target < d.size)
    (agree : ∀ e ∈ added, ∀ f, f ∈ d.edges ∨ f ∈ added →
      e.source = f.source → e.symbol = f.symbol → e.target = f.target) :
    ∃ m, d.addTransitions added = .ok m := by
  induction added generalizing d with
  | nil => exact ⟨d, rfl⟩
  | cons e rest ih =>
      have inside := ends e List.mem_cons_self
      have first : ∃ extended, d.addTransition e = .ok extended := by
        rw [addTransition]
        cases leads : d.successor e.source e.symbol with
        | none => exact ⟨_, rfl⟩
        | some existing =>
            have same := agree e List.mem_cons_self _ (.inl (mem_edges_of_successor leads)) rfl rfl
            exact ⟨d, if_pos same.symm⟩
      obtain ⟨extended, first⟩ := first
      have one := extended_addTransition wf inside.1 inside.2 first
      rw [addTransitions, first]
      refine ih one.wellFormed ?_ ?_
      · intro f mem
        rw [size, one.states]
        exact ends f (List.mem_cons_of_mem e mem)
      · intro f mem g known
        refine agree f (List.mem_cons_of_mem e mem) g ?_
        rw [one.mem_edges, List.mem_singleton, or_assoc] at known
        rwa [List.mem_cons]

end RegularLanguages.Dfa
