import Mathlib.Data.List.Count
import RegularLanguages.Nfa.Reference
import RegularLanguages.Proofs.Nfa.Thompson

/-! # What an expression adds to an automaton

Whatever an automaton holds, growing it by an expression leaves this as it is and
adds the fragment of the expression over the next numbers (`gains_grow`).  `Adds`
says what an automaton has become: its new edges come in front of those that were
there, in some order, since the edges of a whole are added before and after those
of its parts.  Steps follow one another by `Adds.trans`, and with `Adds.congr` the
order is forgotten.

The automaton that grows from the start state alone is the one that has the whole
fragment attached to it, but for the order of its edges (`thompson_eq_grown`). -/
set_option autoImplicit false
namespace RegularLanguages.Nfa

variable {n m k : Nfa} {edges others : List Edge} {size more : Nat}

/-! ## Adding edges and states -/

structure Adds (n : Nfa) (edges : List Edge) (size : Nat) (m : Nfa) : Prop where
  size : m.size = size
  kept : n.edges <:+ m.edges
  perm : m.edges.Perm (edges ++ n.edges)
  accepting : m.accepting = n.accepting
  alphabet : ∀ c, c ∈ m.alphabet ↔ c ∈ n.alphabet ∨ ∃ e ∈ edges, e.label = .symbol c
  increasing : OrderedSet.Increasing n.alphabet → OrderedSet.Increasing m.alphabet

theorem Adds.trans (first : Adds n edges size m) (second : Adds m others more k) :
    Adds n (others ++ edges) more k where
  size := second.size
  kept := first.kept.trans second.kept
  perm := by
    rw [List.append_assoc]
    exact second.perm.trans (first.perm.append_left others)
  accepting := second.accepting.trans first.accepting
  alphabet := fun c => by
    simp only [second.alphabet, first.alphabet, List.mem_append, or_and_right, exists_or]
    rw [or_assoc, or_comm (a := ∃ e, e ∈ edges ∧ _)]
  increasing := fun ordered => second.increasing (first.increasing ordered)

theorem Adds.congr (h : Adds n edges size m) (perm : edges.Perm others) : Adds n others size m where
  size := h.size
  kept := h.kept
  perm := h.perm.trans (perm.append_right n.edges)
  accepting := h.accepting
  alphabet := fun c => by simp only [h.alphabet, perm.mem_iff]
  increasing := h.increasing

theorem adds_addEdge (n : Nfa) (e : Edge) : Adds n [e] n.size (n.addEdge e) := by
  have frame : (n.addLabel e.label).size = n.size ∧ (n.addLabel e.label).edges = n.edges ∧
      (n.addLabel e.label).accepting = n.accepting := by
    rw [addLabel]
    split <;> exact ⟨rfl, rfl, rfl⟩
  have edges : (n.addEdge e).edges = e :: n.edges := congrArg (e :: ·) frame.2.1
  refine ⟨frame.1, edges ▸ List.suffix_cons e n.edges, .of_eq edges, frame.2.2, fun c => ?_, ?_⟩
  · change c ∈ (n.addLabel e.label).alphabet ↔ _
    cases label : e.label with
    | symbol d => simp [addLabel, addSymbol, Label.symbol?, label, or_comm, eq_comm]
    | any => simp [addLabel, Label.symbol?, label]
    | epsilon => simp [addLabel, Label.symbol?, label]
  · intro ordered
    change OrderedSet.Increasing (n.addLabel e.label).alphabet
    rw [addLabel]
    split
    · exact ordered.insert _
    · exact ordered

theorem adds_addEdges (n : Nfa) (edges : List Edge) : Adds n edges n.size (n.addEdges edges) := by
  induction edges generalizing n with
  | nil => exact ⟨rfl, List.suffix_refl _, .refl _, rfl, by simp [addEdges], id⟩
  | cons e rest ih =>
      have first := adds_addEdge n e
      have second := ih (n.addEdge e)
      rw [first.size] at second
      exact (first.trans second).congr List.perm_append_comm

theorem adds_addTerminals (n : Nfa) : Adds n [] (n.size + 2) n.addTerminals.1 :=
  ⟨rfl, List.suffix_refl _, .refl _, rfl, by simp [addTerminals, addState], id⟩

/-! ## Growing by parts -/

structure Gains (n : Nfa) (f : Fragment) (result : Nfa × Terminals) : Prop where
  adds : Adds n f.edges f.next result.1
  entry : result.2.entry = f.entry
  exit : result.2.exit = f.exit

theorem gains_addSingle (n : Nfa) (label : Label) :
    Gains n (.ofLabel n.size label) (n.addSingle label) where
  adds := (adds_addTerminals n).trans (adds_addEdge _ _)
  entry := rfl
  exit := rfl

theorem gains_around {f : Fragment} {grown : Nfa × Terminals} (skip loop : Bool)
    (h : Gains n.addTerminals.1 f grown) :
    Gains n (.wrap skip loop n.size f)
      (grown.1.addEdges (around skip loop n.addTerminals.2 grown.2), n.addTerminals.2) where
  adds := by
    have last := adds_addEdges grown.1 (around skip loop n.addTerminals.2 grown.2)
    rw [h.adds.size] at last
    refine (((adds_addTerminals n).trans h.adds).trans last).congr (.of_eq ?_)
    simp [around, across, addTerminals, Fragment.wrap, h.entry, h.exit]
  entry := rfl
  exit := rfl

theorem adds_growBetween (branches : List Regex)
    (each : ∀ branch ∈ branches, ∀ n : Nfa, Gains n (.ofRegex n.size branch) (n.grow branch))
    (ends : Terminals) : ∀ n : Nfa,
      Adds n (Fragment.ofBranches ends.entry ends.exit n.size branches).edges
        (Fragment.ofBranches ends.entry ends.exit n.size branches).next
        (n.growBetween ends branches) := by
  induction branches with
  | nil => exact fun n => adds_addEdges n []
  | cons branch rest ih =>
      intro n
      have first := each branch List.mem_cons_self n
      have joined := adds_addEdges (n.grow branch).1 (across ends (n.grow branch).2)
      have later := ih (fun r mem => each r (List.mem_cons_of_mem branch mem))
        ((n.grow branch).1.addEdges (across ends (n.grow branch).2))
      rw [joined.size, first.adds.size] at later
      rw [first.adds.size] at joined
      refine ((first.adds.trans joined).trans later).congr ?_
      simp only [Fragment.ofBranches, across, first.entry, first.exit, List.perm_iff_count,
        List.count_append, List.count_cons, List.count_nil]
      intro e
      omega

structure GainsAll (n : Nfa) (f : Fragment) (result : Nfa × List Terminals) : Prop where
  adds : ∃ edges, Adds n edges f.next result.1 ∧ (bridges result.2 ++ edges).Perm f.edges
  entry : result.2.head?.map (·.entry) = some f.entry
  exit : result.2.getLast?.map (·.exit) = some f.exit

theorem gainsAll_growAll (items : List Regex) (nonempty : items ≠ [])
    (each : ∀ item ∈ items, ∀ n : Nfa, Gains n (.ofRegex n.size item) (n.grow item)) :
    ∀ n : Nfa, GainsAll n (.ofItems n.size items) (n.growAll items) := by
  induction items with
  | nil => exact absurd rfl nonempty
  | cons item rest ih =>
      intro n
      have first := each item List.mem_cons_self n
      cases rest with
      | nil =>
          exact ⟨⟨_, first.adds, .refl _⟩, congrArg _ first.entry, congrArg _ first.exit⟩
      | cons second rest =>
          obtain ⟨⟨edges, adds, joined⟩, entry, exit⟩ := ih (List.cons_ne_nil _ _)
            (fun r mem => each r (List.mem_cons_of_mem item mem)) (n.grow item).1
          rw [first.adds.size] at adds joined entry exit
          cases parts : ((n.grow item).1.growAll (second :: rest)).2 with
          | nil => simp [parts] at entry
          | cons next more =>
              have whole : (n.growAll (item :: second :: rest)).2 =
                  (n.grow item).2 :: next :: more := congrArg ((n.grow item).2 :: ·) parts
              rw [parts] at joined entry exit
              have begins : next.entry = _ := Option.some.inj entry
              refine ⟨⟨_, first.adds.trans adds, ?_⟩, ?_, ?_⟩
              · rw [List.perm_iff_count] at joined ⊢
                intro e
                have counts := joined e
                simp only [whole, bridges, Fragment.ofItems, first.exit, begins, List.count_append,
                  List.count_cons] at counts ⊢
                omega
              · rw [whole]
                exact congrArg _ first.entry
              · rw [whole, List.getLast?_cons_cons]
                exact exit

theorem gains_grow (r : Regex) : ∀ n : Nfa, Gains n (.ofRegex n.size r) (n.grow r) := by
  induction r with
  | epsilon => exact fun n => gains_addSingle n .epsilon
  | any => exact fun n => gains_addSingle n .any
  | lit c => exact fun n => gains_addSingle n (.symbol c)
  | cat items each =>
      intro n
      cases items with
      | nil => exact gains_addSingle n .epsilon
      | cons item rest =>
          obtain ⟨⟨edges, adds, joined⟩, entry, exit⟩ :=
            gainsAll_growAll (item :: rest) (List.cons_ne_nil _ _) each n
          obtain ⟨first, head, entry⟩ := Option.map_eq_some_iff.1 entry
          obtain ⟨last, tail, exit⟩ := Option.map_eq_some_iff.1 exit
          have whole : n.grow (.cat (item :: rest)) =
              ((n.growAll (item :: rest)).1.addEdges (bridges (n.growAll (item :: rest)).2),
                ⟨first.entry, last.exit⟩) := by
            rw [grow]
            simp only [head, tail]
          have last := adds_addEdges (n.growAll (item :: rest)).1
            (bridges (n.growAll (item :: rest)).2)
          rw [adds.size] at last
          rw [whole]
          exact ⟨(adds.trans last).congr joined, entry, exit⟩
  | alt branches each =>
      intro n
      cases branches with
      | nil => exact gains_addSingle n .epsilon
      | cons branch rest =>
          have between := adds_growBetween (branch :: rest) each n.addTerminals.2 n.addTerminals.1
          have whole := (adds_addTerminals n).trans between
          exact ⟨whole.congr (.of_eq (List.append_nil _)), rfl, rfl⟩
  | star inner ih => exact fun n => gains_around true true (ih n.addTerminals.1)
  | plus inner ih => exact fun n => gains_around false true (ih n.addTerminals.1)
  | opt inner ih => exact fun n => gains_around true false (ih n.addTerminals.1)

/-! ## The part that is added -/

theorem proper_reorder {base : Nat} {f : Fragment} {language : Language Char}
    (proper : Fragment.Proper base f language) (perm : f.edges.Perm edges) :
    Fragment.Proper base { f with edges := edges } language where
  entry_mem := proper.entry_mem
  exit_mem := proper.exit_mem
  apart := proper.apart
  ends := fun e mem => proper.ends e (perm.mem_iff.2 mem)
  intoEntry := fun e mem => proper.intoEntry e (perm.mem_iff.2 mem)
  fromExit := fun e mem => proper.fromExit e (perm.mem_iff.2 mem)
  spells := fun w => by
    rw [← proper.spells]
    exact ⟨fun path => path.mono perm.symm.subset, fun path => path.mono perm.subset⟩
  reached := fun q low high =>
    (proper.reached q low high).imp fun _ path => path.mono perm.subset
  leaves := fun q low high =>
    (proper.leaves q low high).imp fun _ path => path.mono perm.subset

/-- Growing an automaton by an expression leaves its states and edges as they are,
in front of which it puts edges of its own.  Over the new states these are a proper
fragment for the language of the expression: they join new states only, none enters
the entry or leaves the exit, which are different, every new state is on the way from
the one to the other, and the ways spell the language.  The fragment is the one that
the whole construction attaches at this place. -/
theorem grow_adds_fragment (n : Nfa) (r : Regex) :
    ∃ added : List Edge,
      (n.grow r).1.edges = added ++ n.edges ∧
      (n.grow r).1.accepting = n.accepting ∧
      (∀ c, c ∈ (n.grow r).1.alphabet ↔ c ∈ n.alphabet ∨ .symbol c ∈ r.occurrences) ∧
      Fragment.Proper n.size
        ⟨(n.grow r).2.entry, (n.grow r).2.exit, added, (n.grow r).1.size⟩ r.language ∧
      (n.grow r).1.size = (Fragment.ofRegex n.size r).next ∧
      (n.grow r).2.entry = (Fragment.ofRegex n.size r).entry ∧
      (n.grow r).2.exit = (Fragment.ofRegex n.size r).exit ∧
      added.Perm (Fragment.ofRegex n.size r).edges := by
  obtain ⟨adds, entry, exit⟩ := gains_grow r n
  obtain ⟨added, split⟩ := adds.kept
  have perm : added.Perm (Fragment.ofRegex n.size r).edges :=
    (List.perm_append_right_iff n.edges).1 (split ▸ adds.perm)
  refine ⟨added, split.symm, adds.accepting, fun c => ?_, ?_, adds.size, entry, exit, perm⟩
  · rw [adds.alphabet, ← Fragment.names_ofRegex c r n.size]
    rfl
  · rw [entry, exit, adds.size]
    exact proper_reorder (Fragment.proper_ofRegex r n.size) perm.symm

/-! ## The whole construction -/

theorem adds_start (r : Regex) :
    Adds new (thompson r).edges (thompson r).size
      ((new.grow r).1.addEdge ⟨0, .epsilon, (new.grow r).2.entry⟩) := by
  obtain ⟨adds, entry, -⟩ := gains_grow r new
  have start := adds_addEdge (new.grow r).1 ⟨0, .epsilon, (new.grow r).2.entry⟩
  rw [adds.size, entry] at start
  rw [entry, thompson_edges, thompson_size]
  exact adds.trans start

/-- Growing the automaton state by state and attaching the fragment of the expression
at once give the same automaton, but for the order of its edges. -/
theorem thompson_eq_grown (r : Regex) :
    (thompson r).edges.Perm (grown r).edges ∧
      thompson r = { grown r with edges := (thompson r).edges } := by
  have adds := adds_start r
  have exit := (gains_grow r new).exit
  have perm : (thompson r).edges.Perm (grown r).edges := by
    simpa [grown, setAccepting, new] using adds.perm.symm
  have size : (thompson r).size = (grown r).size := adds.size.symm
  have accepting : (thompson r).accepting = (grown r).accepting := by
    change _ = OrderedSet.insert (new.grow r).2.exit _
    rw [adds.accepting, exit]
    rfl
  have alphabet : (thompson r).alphabet = (grown r).alphabet := by
    refine (wellFormed_thompson r).increasing.ext (adds.increasing List.Pairwise.nil) fun c => ?_
    change _ ↔ c ∈ ((new.grow r).1.addEdge ⟨0, .epsilon, (new.grow r).2.entry⟩).alphabet
    rw [adds.alphabet, thompson_alphabet, Regex.mem_literals, ← Fragment.names_ofRegex c r 1,
      thompson_edges]
    simp [new, Fragment.Names]
  refine ⟨perm, ?_⟩
  change thompson r = ⟨(grown r).size, (thompson r).edges, (grown r).accepting, (grown r).alphabet⟩
  rw [← size, ← accepting, ← alphabet]

end RegularLanguages.Nfa
