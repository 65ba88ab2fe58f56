import RegularLanguages.Proofs.Dfa.Indexed
import RegularLanguages.Proofs.Dfa.Table

/-! # Sequences of operations on an indexed automaton

Pruning, merging and reading a table make another automaton name by name.  That
one represents what they make without an index: the names are known or new where
they have to be, and then each transition goes between the states that have its
names. -/
set_option autoImplicit false
namespace RegularLanguages.Dfa

variable {d n : Indexed} {m r : Dfa} {q : Nat} {done rest : List Nat}

/-! ## Pruning -/

theorem getElem?_states (lt : q < m.size) :
    m.states[q]? = some ⟨m.idOf q, m.isAccepting q⟩ := by
  rw [idOf, isAccepting, List.getElem?_eq_getElem lt]
  rfl

theorem Represents.keep (h : Represents n r) (fresh : r.state? (m.idOf q) = none) :
    Represents (Indexed.keep m n q)
      { r with states := r.states ++ [⟨m.idOf q, m.isAccepting q⟩] } :=
  (h.addFresh fresh (m.isAccepting q)).2

def selected (m : Dfa) (kept : List Nat) : Dfa := ⟨kept.filterMap (m.states[·]?), [], m.alphabet⟩

theorem selected_append (lt : q < m.size) :
    m.selected (done ++ [q]) =
      { m.selected done with
        states := (m.selected done).states ++ [⟨m.idOf q, m.isAccepting q⟩] } := by
  simp [selected, getElem?_states lt]

theorem Represents.keepAll (wf : WellFormed m) (h : Represents n (m.selected done))
    (nodup : (done ++ rest).Nodup) (inside : ∀ q ∈ done ++ rest, q < m.size) :
    Represents (rest.foldl (Indexed.keep m) n) (m.selected (done ++ rest)) := by
  induction rest generalizing n done with
  | nil => simpa using h
  | cons q rest ih =>
      have lt : q < m.size := inside q (by simp)
      have names : (m.selected done).ids = done.map m.idOf :=
        ids_filterMap fun p mem => inside p (List.mem_append_left _ mem)
      have fresh : (m.selected done).state? (m.idOf q) = none := by
        -- Two kept states with one name would be one state kept twice.
        rw [← Option.not_isSome_iff_eq_none, state?_isSome_iff, names]
        intro known
        obtain ⟨p, mem, same⟩ := List.mem_map.1 known
        obtain rfl := wf.idOf_inj (inside p (List.mem_append_left _ mem)) lt same
        exact (List.nodup_append.1 nodup).2.2 p mem p List.mem_cons_self rfl
      have one := h.keep fresh
      rw [← selected_append lt] at one
      rw [List.append_cons] at nodup inside ⊢
      exact ih one nodup inside

/-- The start is there already when its turn comes. -/
theorem represents_start (wf : WellFormed m) :
    Represents (Indexed.keep m (.new m.alphabet (m.idOf 0)) 0) (m.selected [0]) := by
  have first := represents_new m.alphabet (m.idOf 0)
  have found : (Dfa.new m.alphabet (m.idOf 0)).state? (m.idOf 0) = some 0 := by
    simp [Dfa.new, state?]
  have only : m.selected [0] = ⟨[⟨m.idOf 0, m.isAccepting 0⟩], [], m.alphabet⟩ := by
    simp [selected, getElem?_states wf.size_pos]
  rw [only, Indexed.keep, Indexed.mark, first.addState_of_state? found]
  exact represents_marked wf.increasing (m.idOf 0) (m.isAccepting 0)

theorem reachable_eq_cons (wf : WellFormed m) : ∃ rest, m.reachable = 0 :: rest := by
  have increasing := increasing_reachable m
  have mem := zero_mem_reachable wf
  cases split : m.reachable with
  | nil => simp [split] at mem
  | cons q rest =>
      rw [split] at mem increasing
      rcases List.mem_cons.1 mem with rfl | later
      · exact ⟨rest, rfl⟩
      · exact absurd ((List.pairwise_cons.1 increasing).1 0 later) (Nat.not_lt_zero q)

theorem represents_reachableStates (wf : WellFormed m) :
    Represents (m.reachable.foldl (Indexed.keep m) (.new m.alphabet (m.idOf 0)))
      m.reachableStates := by
  have all : m.reachableStates = m.selected m.reachable := rfl
  have nodup := (increasing_reachable m).nodup
  have inside : ∀ q ∈ m.reachable, q < m.size := fun q mem => lt_of_mem_reachable wf mem
  obtain ⟨rest, split⟩ := reachable_eq_cons wf
  rw [all, split, List.foldl_cons]
  rw [split] at nodup inside
  have kept := (represents_start wf).keepAll wf nodup inside
  exact kept

theorem indexOf_reachableStates (wf : WellFormed m) (mem : q ∈ m.reachable) :
    m.reachableStates.indexOf (m.idOf q) = m.reachable.idxOf q := by
  refine indexOf_of_state? (state?_of_ids (wellFormed_reachableStates wf).nodup_ids ?_)
  rw [ids_reachableStates wf, List.getElem?_map, List.getElem?_idxOf mem, Option.map_some]

def reachableNamed (m : Dfa) : List NamedEdge :=
  (m.transitions.filter fun e => e.source ∈ m.reachable).map m.named

theorem mem_reachableNamed {e : NamedEdge} (mem : e ∈ m.reachableNamed) :
    ∃ f ∈ m.edges, f.source ∈ m.reachable ∧ m.named f = e := by
  simpa [reachableNamed, transitions, and_assoc] using mem

theorem map_edgeOf_reachableNamed (wf : WellFormed m) :
    m.reachableNamed.map m.reachableStates.edgeOf = m.reachableEdges := by
  rw [reachableNamed, reachableEdges, List.map_map]
  refine List.map_congr_left fun e mem => ?_
  simp only [List.mem_filter, transitions, List.mem_reverse, decide_eq_true_eq] at mem
  have target := reachable_of_edge wf mem.1 mem.2
  simp only [Function.comp_apply, edgeOf, named, indexOf_reachableStates wf mem.2,
    indexOf_reachableStates wf target]

theorem Represents.prune (h : Represents d m) : Agree d.prune m.prune := by
  obtain rfl := h.bare
  have wf := h.wellFormed
  by_cases all : d.bare.reachable.length = d.bare.size
  · have unchanged : d.prune = .ok d := by
      simp only [Indexed.prune, h.start]
      exact if_pos all
    rw [unchanged, Dfa.prune, if_pos all]
    exact .ok h
  · have rebuilt : d.prune = (d.bare.reachable.foldl (Indexed.keep d.bare)
        (.new d.alphabet (d.bare.idOf 0))).addNamed d.bare.reachableNamed := by
      simp only [Indexed.prune, h.start]
      exact if_neg all
    have pruned : d.bare.prune = d.bare.reachableStates.addTransitions d.bare.reachableEdges :=
      if_neg all
    rw [rebuilt, pruned, ← map_edgeOf_reachableNamed wf]
    refine (represents_reachableStates wf).addNamed fun e mem => ?_
    obtain ⟨f, edge, source, rfl⟩ := mem_reachableNamed mem
    rw [ids_reachableStates wf]
    exact ⟨List.mem_map_of_mem source, List.mem_map_of_mem (reachable_of_edge wf edge source)⟩

/-! ## Merging -/

theorem Represents.foldl {α : Type} {f : Indexed → α → Indexed} {g : Dfa → α → Dfa}
    (step : ∀ {d : Indexed} {m : Dfa} (a : α), Represents d m → Represents (f d a) (g m a))
    (items : List α) (h : Represents d m) : Represents (items.foldl f d) (items.foldl g m) := by
  induction items generalizing d m with
  | nil => exact h
  | cons a rest ih => exact ih (step a h)

variable {groups : List (List Nat)}

theorem getD_map_indexOf (names : List String) (states : Dfa) (g : Nat) :
    (names.map states.indexOf)[g]?.getD 0 = groupState names states g := by
  rw [groupState, List.getElem?_map]
  cases names[g]? <;> rfl

theorem zip_map_indexOf {names : List String} (same : names.length = groups.length)
    (states : Dfa) : groups.zip (names.map states.indexOf) =
      (List.range groups.length).map fun g => (groups[g]?.getD [], groupState names states g) := by
  refine List.ext_getElem (by simp [same]) fun g lt _ => ?_
  have ltG : g < groups.length := (List.lt_length_left_of_zip lt)
  simp only [List.getElem_zip, List.getElem_map, List.getElem_range, ← getD_map_indexOf,
    List.getElem?_map]
  simp [ltG, same]

theorem Represents.markGroups (h : Represents n (m.groupStates groups)) :
    Represents ((groups.zip ((m.groupNames groups).map (m.groupStates groups).indexOf)).foldl
      (fun n (group, q) => if group.any m.isAccepting then n.setAccepting q else n) n)
      (m.markedStates groups) := by
  rw [zip_map_indexOf (length_groupNames m groups), List.foldl_map, markedStates,
    List.foldl_filter]
  refine h.foldl (fun g represents => ?_) _
  dsimp only
  split
  next => exact represents.setAccepting _
  next => exact represents

theorem Represents.merge (h : Represents d m) (parts : Partitions m groups) :
    Agree (d.merge groups) (m.merge groups) := by
  obtain rfl := h.bare
  have wf := h.wellFormed
  obtain ⟨states, numbers⟩ := (represents_new d.alphabet
    ((d.bare.groupNames groups)[groupOf groups 0]?.getD "")).addStates (d.bare.groupNames groups)
  rw [Indexed.merge, h.start]
  generalize Indexed.addStates _ _ = made at states numbers ⊢
  obtain ⟨extended, all⟩ := made
  obtain rfl : all = (d.bare.groupNames groups).map (d.bare.groupStates groups).indexOf := numbers
  simp only [getD_map_indexOf]
  exact Represents.addTransitions (Represents.markGroups states) (ends_mergedEdges wf parts)

theorem Represents.minimize (h : Represents d m) : Agree d.minimize m.minimize := by
  obtain rfl := h.bare
  exact h.merge (sound_equivalenceGroups h.wellFormed).parts

/-! ## Tables and documents -/

theorem Represents.marks {names : List String} (h : Represents d m)
    (known : ∀ id ∈ names, id ∈ m.ids) :
    Represents (names.foldl Indexed.mark d)
      (names.foldl (fun m id => m.setAccepting (m.indexOf id)) m) ∧
    (names.foldl (fun m id => m.setAccepting (m.indexOf id)) m).ids = m.ids := by
  induction names generalizing d m with
  | nil => exact ⟨h, rfl⟩
  | cons id rest ih =>
      obtain ⟨first, others⟩ := List.forall_mem_cons.1 known
      have same := ids_setAccepting m (m.indexOf id)
      obtain ⟨marked, ids⟩ := ih (h.mark first) (same.symm ▸ others)
      exact ⟨marked, ids.trans same⟩

theorem map_edgeOf_named (m : Dfa) (t : Table) (symbols : List Char) :
    (t.named symbols).map m.edgeOf = (t.transitions.zip symbols).map fun (row, c) =>
      ⟨m.indexOf row.source, c, m.indexOf row.target⟩ := List.map_map

theorem Represents.addRows {t : Table} {symbols : List Char} (h : Represents d m)
    (listed : ∀ id ∈ t.states, id ∈ m.ids) (checked : t.validate = .ok symbols) :
    Agree ((t.accepting.foldl Indexed.mark d).addNamed (t.named symbols))
      ((t.accepting.foldl (fun m id => m.setAccepting (m.indexOf id)) m).addTransitions
        ((t.transitions.zip symbols).map fun (row, c) =>
          ⟨m.indexOf row.source, c, m.indexOf row.target⟩)) := by
  obtain ⟨proper, -⟩ := Table.proper_of_validate checked
  obtain ⟨marked, ids⟩ := h.marks fun id mem => listed id (proper.accepting id mem)
  have known : ∀ e ∈ t.named symbols, e.source ∈ m.ids ∧ e.target ∈ m.ids := by
    intro e mem
    obtain ⟨⟨row, c⟩, pair, rfl⟩ := List.mem_map.1 mem
    have ends := proper.rows row (List.of_mem_zip pair).1
    exact ⟨listed _ ends.source_mem, listed _ ends.target_mem⟩
  rw [← map_edgeOf_named, ← edgeOf_congr ids]
  exact marked.addNamed (ids.symm ▸ known)

theorem agree_ofTable (t : Table) : Agree (Indexed.ofTable t) (ofTable t) := by
  rw [Indexed.ofTable, ofTable]
  cases checked : t.validate with
  | error e => exact .error
  | ok symbols =>
      have states := ((represents_new symbols (t.start.getD "")).addStates t.states).1
      have listed : ∀ id ∈ t.states,
          id ∈ (t.states.foldl addState (new symbols (t.start.getD ""))).ids := by
        rw [(foldl_addState _ _).1]
        exact fun id mem => Distinct.mem_foldl_add.2 (.inr mem)
      have added := states.addRows listed checked
      dsimp only
      generalize Indexed.addNamed _ _ = x at added ⊢
      generalize addTransitions _ _ = y at added ⊢
      cases added with
      | ok h => exact .ok h
      | error => exact .error

theorem Represents.addSymbolTexts (h : Represents d m) (texts : List String) :
    Represents (texts.foldl Indexed.addSymbolText d) (texts.foldl addSymbolText m) := by
  refine h.foldl (fun {d m} text represents => ?_) texts
  rw [Indexed.addSymbolText, addSymbolText]
  cases text.toList with
  | nil => exact represents
  | cons c rest =>
      cases rest with
      | nil => exact represents.addSymbol c
      | cons => exact represents

theorem agree_ofDocument (doc : Document) : Agree (Indexed.ofDocument doc) (ofDocument doc) := by
  have read := agree_ofTable (tableOf doc)
  rw [Indexed.ofDocument, ofDocument]
  generalize Indexed.ofTable (tableOf doc) = x at read ⊢
  generalize ofTable (tableOf doc) = y at read ⊢
  cases read with
  | ok h => exact .ok (h.addSymbolTexts doc.alphabet)
  | error => exact .error

/-! ## Sequences -/

theorem Built.attempt (built : Built m) (e : Edge) : Built (m.attempt e) := by
  rw [Dfa.attempt]
  cases added : m.addTransition e with
  | error c => exact built
  | ok extended =>
      dsimp only
      split
      next inside => exact built.addTransition inside.1 inside.2 added
      next => exact built.addSymbol e.symbol

theorem Built.getD {ε : Type} {x : Except ε Dfa} (built : Built m)
    (made : ∀ n, x = .ok n → Built n) : Built (x.toOption.getD m) := by
  cases x with
  | error e => exact built
  | ok n => exact made n rfl

theorem Built.perform (built : Built m) (op : Operation) : Built (m.perform op) := by
  cases op with
  | new alphabet start => exact .new alphabet start
  | addState id => exact built.addState id
  | setAccepting q =>
      by_cases lt : q < m.size
      · exact built.setAccepting lt
      · have unchanged : m.setAccepting q = m := by
          rw [Dfa.setAccepting, List.modify_eq_self (Nat.le_of_not_lt lt)]
        rw [Dfa.perform, unchanged]
        exact built
  | addTransition e => exact built.attempt e
  | addSymbol c => exact built.addSymbol c
  | prune => exact built.getD fun n ok => built.prune ok
  | minimize => exact built.getD fun n ok => built.minimize ok
  | ofTable t => exact built.getD fun n ok => .ofTable ok
  | ofDocument doc => exact built.getD fun n ok => .ofDocument ok

theorem Built.performAll (built : Built m) (ops : List Operation) : Built (m.performAll ops) := by
  induction ops generalizing m with
  | nil => exact built
  | cons op rest ih => exact ih (built.perform op)

theorem Agree.getD {ε : Type} {x : Except Refusal Indexed} {y : Except ε Dfa} (agree : Agree x y)
    (h : Represents d m) : Represents (x.toOption.getD d) (y.toOption.getD m) := by
  cases agree with
  | ok made => exact made
  | error => exact h

theorem Represents.perform (h : Represents d m) (op : Operation) :
    Represents (d.perform op) (m.perform op) := by
  cases op with
  | new alphabet start => exact represents_new alphabet start
  | addState id => exact (h.addState id).1
  | setAccepting q => exact h.setAccepting q
  | addTransition e => exact h.attempt e
  | addSymbol c => exact h.addSymbol c
  | prune => exact h.prune.getD h
  | minimize => exact h.minimize.getD h
  | ofTable t => exact (agree_ofTable t).getD h
  | ofDocument doc => exact (agree_ofDocument doc).getD h

theorem Represents.performAll (h : Represents d m) (ops : List Operation) :
    Represents (d.performAll ops) (m.performAll ops) := h.foldl (fun op h => h.perform op) ops

theorem Represents.coherent (h : Represents d m) : d.Coherent := by
  obtain rfl := h.bare
  have wf := h.wellFormed
  refine
    { ids_nodup := wf.ids_nodup
      index := fun id q => ?_
      ends := wf.ends
      deterministic := wf.pairwise_edges
      increasing := wf.increasing
      symbols := wf.symbols
      start := ⟨h.start, h.start ▸ wf.size_pos⟩ }
  rw [h.index, state?_eq_some_iff wf.nodup_ids, ids, List.getElem?_map, Option.map_eq_some_iff]
  rfl

/-- After any sequence of operations, refused ones among them, the parts of an
indexed automaton fit together, and they are what the sequence leads to without
an index.  A transition that is there already changes nothing when it is added
again, and one that conflicts with it is refused and changes nothing. -/
theorem performAll_coherent (alphabet : List Char) (start : String) (ops : List Operation) :
    ∃ d, (Indexed.new alphabet start).performAll ops = d ∧
      d.Coherent ∧
      d.bare = (Dfa.new alphabet start).performAll ops ∧
      (∀ e ∈ d.edges, d.addTransition e = (d, none)) ∧
      ∀ e ∈ d.edges, ∀ target, target ≠ e.target → ∃ refusal,
        d.addTransition ⟨e.source, e.symbol, target⟩ = (d, some refusal) ∧
          (target < d.states.length → refusal = .conflict
            ⟨d.bare.idOf e.source, e.symbol, d.bare.idOf e.target, d.bare.idOf target⟩) := by
  have h := (represents_new alphabet start).performAll ops
  generalize (Indexed.new alphabet start).performAll ops = d at h
  have leads : ∀ e ∈ d.edges, d.bare.successor e.source e.symbol = some e.target := by
    intro e edge
    rw [h.bare]
    exact h.wellFormed.det.successor_eq_some_iff.2 (h.bare ▸ edge)
  refine ⟨d, rfl, h.coherent, h.bare, fun e edge => ?_, fun e edge target differs => ?_⟩
  · rw [Indexed.addTransition, leads e edge]
    exact if_pos rfl
  · have other : e.target ≠ target := differs.symm
    rw [Indexed.addTransition]
    simp only [leads e edge, if_neg other]
    split
    next => exact ⟨_, rfl, fun _ => rfl⟩
    next outside => exact ⟨_, rfl, fun lt => absurd lt outside⟩

end RegularLanguages.Dfa
