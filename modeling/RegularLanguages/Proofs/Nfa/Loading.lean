import RegularLanguages.Nfa.Loading
import RegularLanguages.Proofs.Nfa.Document

/-! # Building while checking reads what checking beforehand reads

Once the states are there, the index gives the position of each name in the list
without repetitions, and neither changes any more (`Holds`).  So marks and
transitions find what `readRow` finds in the list, and no state is missing.  The
automaton is the one that is read all at once, but with the newest edge first
(`agree_load`). -/
set_option autoImplicit false
namespace RegularLanguages.Nfa

variable {names : List String} {l : Loading} {name : String} {edges : List Edge}
  {accepting : List Nat} {doc : Document}

/-- The automaton has the named states, and so far the given edges and marks.
The index gives the positions of the names. -/
structure Holds (names : List String) (edges : List Edge) (accepting : List Nat)
    (l : Loading) : Prop where
  nodup : names.Nodup
  automaton : l.automaton = ofEdges names.length edges accepting
  index : ∀ name : String, l.index[name]? = names.idxOf? name

/-- Both ways of reading find the same fault, or neither finds one and what they
give fits together. -/
inductive Agree {α β : Type} (fits : α → β → Prop) :
    Except TableError α → Except Refusal β → Prop where
  | error {e : TableError} : Agree fits (.error e) (.error (.table e))
  | ok {a : α} {b : β} : fits a b → Agree fits (.ok a) (.ok b)

/-! ## States -/

theorem holds_start (name : String) : Holds [name] [] [] (.start name) where
  nodup := List.nodup_singleton name
  automaton := rfl
  index other := by
    by_cases same : name = other
    · simp [Loading.start, List.idxOf?_cons, same]
    · simp [Loading.start, List.idxOf?_cons, same]

namespace Holds

theorem addName (h : Holds names [] [] l) (name : String) :
    Holds (Distinct.add names name) [] [] (l.addName name) := by
  rw [Loading.addName, h.index]
  cases found : names.idxOf? name with
  | some q =>
      have known : name ∈ names := List.isSome_idxOf?.1 (Option.isSome_of_eq_some found)
      rw [Distinct.add_of_mem known]
      exact h
  | none =>
      have new : name ∉ names := List.idxOf?_eq_none_iff.1 found
      have nodup := Distinct.nodup_add h.nodup name
      rw [Distinct.add_of_notMem new] at nodup ⊢
      refine ⟨nodup, ?_, ?_⟩
      · rw [h.automaton, List.length_append, List.length_singleton]
        rfl
      · intro other
        have size : l.automaton.size = names.length := congrArg Nfa.size h.automaton
        rw [Std.HashMap.getElem?_insert, size, h.index, Distinct.idxOf?_concat]
        by_cases same : name = other
        · simp [← same, found]
        · simp [same]

theorem addNames (h : Holds names [] [] l) (states : List String) :
    Holds (states.foldl Distinct.add names) [] [] (states.foldl Loading.addName l) := by
  induction states generalizing names l with
  | nil => exact h
  | cons name rest ih => exact ih (h.addName name)

end Holds

theorem holds_addNames (doc : Document) :
    Holds (stateNames doc) [] [] (doc.states.foldl Loading.addName (.start doc.start)) := by
  rw [stateNames, Distinct.ofList_cons]
  exact (holds_start doc.start).addNames doc.states

namespace Holds

/-! ## Marks -/

theorem mark (h : Holds names edges accepting l) (known : name ∈ names) :
    ∃ m, l.mark name = .ok m ∧ Holds names edges (names.idxOf name :: accepting) m := by
  have inside : l.automaton.has (names.idxOf name) = true := by
    rw [h.automaton]
    exact decide_eq_true (List.idxOf_lt_length_of_mem known)
  have marked : l.automaton.setAccepting? (names.idxOf name) =
      some (ofEdges names.length edges (names.idxOf name :: accepting)) := by
    rw [setAccepting?, if_pos inside, h.automaton]
    rfl
  rw [Loading.mark, h.index, Distinct.idxOf?_of_mem h.nodup known]
  simp only [marked]
  exact ⟨_, rfl, h.nodup, rfl, h.index⟩

theorem marks (h : Holds names edges accepting l) {marked : List String}
    (known : ∀ name ∈ marked, name ∈ names) :
    ∃ m, l.marks marked = .ok m ∧
      Holds names edges ((marked.map names.idxOf).reverse ++ accepting) m := by
  induction marked generalizing l accepting with
  | nil => exact ⟨l, rfl, h⟩
  | cons name rest ih =>
      obtain ⟨first, others⟩ := List.forall_mem_cons.1 known
      obtain ⟨m, one, holds⟩ := h.mark first
      obtain ⟨last, all, holds⟩ := ih holds others
      refine ⟨last, ?_, ?_⟩
      · rw [Loading.marks, one]
        exact all
      · rw [List.map_cons, List.reverse_cons, List.append_assoc]
        exact holds

/-- The names before the first unknown one are marked, which does not matter
any more. -/
theorem marks_error (h : Holds names edges accepting l) {marked : List String}
    (found : marked.find? (· ∉ names) = some name) :
    l.marks marked = .error (.table (.unknownAccepting name)) := by
  induction marked generalizing l accepting with
  | nil => cases found
  | cons first rest ih =>
      rw [List.find?_cons] at found
      by_cases known : first ∈ names
      · obtain ⟨m, one, holds⟩ := h.mark known
        rw [Loading.marks, one]
        exact ih holds (by simpa [known] using found)
      · obtain rfl : first = name := by simpa [known] using found
        have nowhere := List.idxOf?_eq_none_iff.2 known
        rw [Loading.marks, Loading.mark, h.index, nowhere]

/-! ## Transitions -/

theorem addEdge (h : Holds names edges accepting l) {e : Edge} (source : e.source < names.length)
    (target : e.target < names.length) :
    l.automaton.addEdge? e = (ofEdges names.length (e :: edges) accepting, true) := by
  have both : (l.automaton.has e.source && l.automaton.has e.target) = true := by
    rw [h.automaton]
    exact Bool.and_eq_true_iff.2 ⟨decide_eq_true source, decide_eq_true target⟩
  rw [addEdge?, if_pos both, h.automaton]
  obtain ⟨p, label, q⟩ := e
  cases label <;> rfl

theorem addRow (h : Holds names edges accepting l) (number : Nat) (row : Row) :
    Agree (fun e => Holds names (e :: edges) accepting) (readRow names number row)
      (l.addRow number row) := by
  unfold readRow Loading.addRow
  by_cases missing : row.source = "" ∨ row.target = ""
  · rw [if_pos missing, if_pos missing]
    exact .error
  rw [if_neg missing, if_neg missing]
  cases Label.ofText row.symbol with
  | error e => exact .error
  | ok label =>
      simp only [h.index]
      cases from? : names.idxOf? row.source with
      | none => exact .error
      | some p =>
          cases to? : names.idxOf? row.target with
          | none => exact .error
          | some q =>
              have source := (Distinct.idxOf?_eq_some_iff h.nodup).1 from?
              have target := (Distinct.idxOf?_eq_some_iff h.nodup).1 to?
              have added := h.addEdge (e := ⟨p, label, q⟩) (List.getElem?_eq_some_iff.1 source).1
                (List.getElem?_eq_some_iff.1 target).1
              simp only [added]
              exact .ok ⟨h.nodup, rfl, h.index⟩

theorem addRows (h : Holds names edges accepting l) (number : Nat) (rows : List Row) :
    Agree (fun added => Holds names (added.reverse ++ edges) accepting)
      (readRows names number rows) (l.addRows number rows) := by
  induction rows generalizing number l edges with
  | nil => exact .ok h
  | cons row rest ih =>
      have first := h.addRow number row
      unfold readRows Loading.addRows
      generalize readRow names number row = read at first
      generalize l.addRow number row = added at first
      cases first with
      | error => exact .error
      | @ok e m holds =>
          have others := ih holds (number + 1)
          dsimp only
          generalize readRows names (number + 1) rest = read at others
          generalize m.addRows (number + 1) rest = added at others
          cases others with
          | error => exact .error
          | ok holds =>
              refine .ok ?_
              rw [List.reverse_cons, List.append_assoc]
              exact holds

end Holds

/-! ## Documents -/

theorem foldl_addEntry (texts : List String) (n : Nfa) :
    texts.foldl addEntry n = (texts.filterMap symbolOfText?).foldl addSymbol n := by
  induction texts generalizing n with
  | nil => rfl
  | cons text rest ih =>
      rw [List.foldl_cons, ih, addEntry, List.filterMap_cons]
      cases symbolOfText? text <;> rfl

theorem ofEdges_reverse (size : Nat) (edges : List Edge) (accepting : List Nat) :
    ofEdges size edges.reverse accepting.reverse =
      { ofEdges size edges accepting with edges := edges.reverse } := by
  have marks : OrderedSet.ofList accepting.reverse = OrderedSet.ofList accepting :=
    OrderedSet.ofList_congr fun q => List.mem_reverse
  have symbols : OrderedSet.ofList (edges.reverse.filterMap (·.label.symbol?)) =
      OrderedSet.ofList (edges.filterMap (·.label.symbol?)) := by
    apply OrderedSet.ofList_congr
    intro c
    rw [List.filterMap_reverse, List.mem_reverse]
  rw [ofEdges, marks, symbols]
  rfl

theorem foldl_addSymbol_edges (symbols : List Char) (n : Nfa) (edges : List Edge) :
    symbols.foldl addSymbol { n with edges := edges } =
      { symbols.foldl addSymbol n with edges := edges } := by
  induction symbols generalizing n with
  | nil => rfl
  | cons c rest ih => exact ih (n.addSymbol c)

/-- Building the automaton while checking reports the same fault as checking
beforehand, and gives the same automaton but for the order of its edges. -/
theorem agree_load (doc : Document) :
    Agree (fun n m => m = { n with edges := n.edges.reverse }) (ofDocument doc) (load doc) := by
  unfold ofDocument load
  by_cases stateless : doc.states = []
  · rw [if_pos stateless, if_pos stateless]
    exact .error
  rw [if_neg stateless, if_neg stateless]
  by_cases empty : doc.start = ""
  · rw [if_pos empty, if_pos empty]
    exact .error
  rw [if_neg empty, if_neg empty]
  by_cases unlisted : doc.start ∉ doc.states
  · rw [if_pos unlisted, if_pos unlisted]
    exact .error
  rw [if_neg unlisted, if_neg unlisted]
  have h := holds_addNames doc
  have same : (fun name => decide (name ∉ doc.states)) =
      fun name => decide (name ∉ stateNames doc) := by
    funext name
    exact decide_eq_decide.2 (not_congr (Distinct.mem_ofList_cons (not_not.1 unlisted)).symm)
  rw [same]
  cases unknown : doc.accepting.find? (· ∉ stateNames doc) with
  | some name =>
      rw [h.marks_error unknown]
      exact .error
  | none =>
      have known : ∀ name ∈ doc.accepting, name ∈ stateNames doc := by
        simpa using unknown
      obtain ⟨m, marked, holds⟩ := h.marks known
      have rows := holds.addRows 0 doc.transitions
      rw [marked]
      unfold stateNames at rows
      dsimp only
      generalize readRows _ 0 doc.transitions = read at rows
      generalize m.addRows 0 doc.transitions = added at rows
      cases rows with
      | error => exact .error
      | @ok edges l holds =>
          refine .ok ?_
          rw [foldl_addEntry, holds.automaton, List.append_nil, List.append_nil, ofEdges_reverse,
            foldl_addSymbol_edges, (foldl_addSymbol _ _).2.1]
          rfl

theorem load_eq_error_iff {refusal : Refusal} :
    load doc = .error refusal ↔ ∃ e, refusal = .table e ∧ ofDocument doc = .error e := by
  have agree := agree_load doc
  generalize ofDocument doc = read at agree
  generalize load doc = loaded at agree
  cases agree with
  | @error e =>
      constructor
      · intro stopped
        exact ⟨e, (Except.error.inj stopped).symm, rfl⟩
      · intro given
        obtain ⟨e, rfl, stopped⟩ := given
        rw [Except.error.inj stopped]
  | ok =>
      constructor
      · intro stopped
        cases stopped
      · intro given
        obtain ⟨e, -, stopped⟩ := given
        cases stopped

theorem load_of_ofDocument {n : Nfa} (read : ofDocument doc = .ok n) :
    load doc = .ok { n with edges := n.edges.reverse } := by
  have agree := agree_load doc
  rw [read] at agree
  generalize load doc = loaded at agree
  cases agree with
  | ok same => rw [same]

end RegularLanguages.Nfa
