import Mathlib.Data.List.Perm.Basic
import RegularLanguages.Proofs.Nfa.Document
import RegularLanguages.Proofs.Nfa.Lockstep
import RegularLanguages.Proofs.Nfa.Minimal

/-! # Documents that are alike are determinized alike

The numbers of the states depend on how a document is written.  A renaming takes
the name of one number to the name of another, and the numbers that it ties
together have the same edges (`Counterparts`).  So every path of the one
automaton has a counterpart in the other that spells the same, and the sets that
a word leads to look the same from outside. -/
set_option autoImplicit false
namespace RegularLanguages.Nfa

variable {n m : Nfa} {R : Nat → Nat → Prop} {word : List Char} {p q : Nat}

/-! ## Counterparts -/

/-- Each state of one automaton is tied to at most one of the other, the starts
to each other, and the edges and the accepting states go with them. -/
structure Counterparts (n m : Nfa) (R : Nat → Nat → Prop) : Prop where
  start : R 0 0
  unique : ∀ p q q', R p q → R p q' → q = q'
  injective : ∀ p p' q, R p q → R p' q → p = p'
  forth : ∀ e ∈ n.edges, ∃ f ∈ m.edges,
    R e.source f.source ∧ e.label = f.label ∧ R e.target f.target
  back : ∀ f ∈ m.edges, ∃ e ∈ n.edges,
    R e.source f.source ∧ e.label = f.label ∧ R e.target f.target
  accepting : ∀ p q, R p q → (n.isAccepting p = true ↔ m.isAccepting q = true)

namespace Counterparts

theorem flip (h : Counterparts n m R) : Counterparts m n fun q p => R p q where
  start := h.start
  unique q p p' := h.injective p p' q
  injective q q' p := h.unique p q q'
  forth f edge := by
    obtain ⟨e, edge', source, label, target⟩ := h.back f edge
    exact ⟨e, edge', source, label.symm, target⟩
  back e edge := by
    obtain ⟨f, edge', source, label, target⟩ := h.forth e edge
    exact ⟨f, edge', source, label.symm, target⟩
  accepting q p tied := (h.accepting p q tied).symm

theorem exists_edge (h : Counterparts n m R) {q' : Nat} {label : Label} (tied : R p q)
    (edge : ⟨p, label, q'⟩ ∈ n.edges) : ∃ r, ⟨q, label, r⟩ ∈ m.edges ∧ R q' r := by
  obtain ⟨⟨p', label', r⟩, edge', source, same, target⟩ := h.forth _ edge
  simp only at source same target
  obtain rfl := h.unique _ _ _ tied source
  exact ⟨r, same ▸ edge', target⟩

theorem exists_path (h : Counterparts n m R) {a b : Nat} (path : Path n.edges a word b)
    (tied : R a p) : ∃ q, R b q ∧ Path m.edges p word q := by
  induction path generalizing p with
  | stay a => exact ⟨p, tied, .stay p⟩
  | silent edge _ ih =>
      obtain ⟨r, edge', next⟩ := h.exists_edge tied edge
      obtain ⟨q, last, path⟩ := ih next
      exact ⟨q, last, .silent edge' path⟩
  | read edge reads _ ih =>
      obtain ⟨r, edge', next⟩ := h.exists_edge tied edge
      obtain ⟨q, last, path⟩ := ih next
      exact ⟨q, last, .read edge' reads path⟩

theorem path_iff (h : Counterparts n m R) (tied : R p q) :
    Path n.edges 0 word p ↔ Path m.edges 0 word q := by
  constructor
  · intro path
    obtain ⟨q', tied', path'⟩ := h.exists_path path h.start
    rwa [h.unique p q q' tied tied']
  · intro path
    obtain ⟨p', tied', path'⟩ := h.flip.exists_path path h.start
    rwa [h.injective p p' q tied tied']

theorem exists_tied (h : Counterparts n m R) (path : Path m.edges 0 word q) : ∃ p, R p q := by
  obtain ⟨p, tied, -⟩ := h.flip.exists_path path h.start
  exact ⟨p, tied⟩

theorem hasAcceptingPath (h : Counterparts n m R) (accepted : n.HasAcceptingPath word) :
    m.HasAcceptingPath word := by
  obtain ⟨p, accepting, path⟩ := accepted
  obtain ⟨q, tied, path'⟩ := h.exists_path path h.start
  exact ⟨q, (h.accepting p q tied).1 accepting, path'⟩

theorem same_ends (h : Counterparts n m R) {u v : List Char}
    (same : ∀ p, Path n.edges 0 u p ↔ Path n.edges 0 v p) (q : Nat) :
    Path m.edges 0 u q ↔ Path m.edges 0 v q := by
  constructor
  · intro path
    obtain ⟨p, tied⟩ := h.exists_tied path
    rwa [← h.path_iff tied, ← same p, h.path_iff tied]
  · intro path
    obtain ⟨p, tied⟩ := h.exists_tied path
    rwa [← h.path_iff tied, same p, h.path_iff tied]

theorem sameRuns (h : Counterparts n m R) (wf : WellFormed n) (wf' : WellFormed m) :
    SameRuns n m where
  stuck word := by
    rw [wf.statesAfter_eq_nil_iff, wf'.statesAfter_eq_nil_iff]
    constructor
    · intro nowhere q path
      obtain ⟨p, tied⟩ := h.exists_tied path
      exact nowhere p ((h.path_iff tied).2 path)
    · intro nowhere p path
      obtain ⟨q, tied⟩ := h.flip.exists_tied path
      exact nowhere q ((h.path_iff tied).1 path)
  meet u v := by
    rw [wf.statesAfter_eq_iff, wf'.statesAfter_eq_iff]
    exact ⟨h.same_ends, h.flip.same_ends⟩
  accepts word := by
    rw [Bool.eq_iff_iff, wf.accepts_iff_hasAcceptingPath, wf'.accepts_iff_hasAcceptingPath]
    exact ⟨h.hasAcceptingPath, h.flip.hasAcceptingPath⟩

end Counterparts

/-! ## Documents -/

variable {a b doc : Document} {rename : String → String} {name : String} {s : Step}

theorem start_mem_states (read : ofDocument doc = .ok n) : doc.start ∈ doc.states := by
  unfold ofDocument at read
  split at read
  · cases read
  · split at read
    · cases read
    · split at read
      · cases read
      · next listed => exact not_not.1 listed

theorem mem_stateNames_iff (read : ofDocument doc = .ok n) :
    name ∈ stateNames doc ↔ name ∈ doc.states :=
  Distinct.mem_ofList_cons (start_mem_states read)

theorem accepting_mem_states (read : ofDocument doc = .ok n) (mem : name ∈ doc.accepting) :
    name ∈ doc.states :=
  (mem_stateNames_iff read).1 ((ofDocument_ok read).1 name mem)

theorem size_ofDocument (read : ofDocument doc = .ok n) : n.size = (stateNames doc).length := by
  obtain ⟨-, edges, -, rfl⟩ := ofDocument_ok read
  exact (foldl_addSymbol _ _).1

theorem ReadFrom.hasStep_iff (h : ReadFrom doc n) : HasStep doc s ↔
    ∃ e ∈ n.edges, (stateNames doc)[e.source]? = some s.source ∧ e.label = s.label ∧
      (stateNames doc)[e.target]? = some s.target := by
  obtain ⟨forward, backward⟩ := exists_describes h.edges
  constructor
  · rintro ⟨row, mem, source, target, label⟩
    obtain ⟨e, edge, described⟩ := forward row mem
    refine ⟨e, edge, ?_, ?_, ?_⟩
    · rw [described.source, source]
    · exact Except.ok.inj (described.label.symm.trans label)
    · rw [described.target, target]
  · rintro ⟨e, edge, source, label, target⟩
    obtain ⟨row, mem, described⟩ := backward e edge
    refine ⟨row, mem, ?_, ?_, ?_⟩
    · exact Option.some.inj (described.source.symm.trans source)
    · exact Option.some.inj (described.target.symm.trans target)
    · rw [described.label, label]

theorem ReadFrom.mem_alphabet_iff (h : ReadFrom doc n) {c : Char} :
    c ∈ n.alphabet ↔ c ∈ listedSymbols doc ∨ ∃ s, HasStep doc s ∧ s.label = .symbol c := by
  have onRow : (∃ s, HasStep doc s ∧ s.label = .symbol c) ↔
      c ∉ ['.', 'ε', 'λ'] ∧ ∃ row ∈ doc.transitions, row.symbol.toList = [c] := by
    constructor
    · rintro ⟨s, ⟨row, mem, -, -, label⟩, reads⟩
      rw [reads, Label.ofText_eq_symbol_iff] at label
      exact ⟨label.2, row, mem, label.1⟩
    · rintro ⟨plain, row, mem, single⟩
      have label := Label.ofText_eq_symbol_iff.2 ⟨single, plain⟩
      exact ⟨⟨row.source, .symbol c, row.target⟩, ⟨row, mem, rfl, rfl, label⟩, rfl⟩
  rw [h.mem_alphabet, Document.Names, mem_listedSymbols, onRow, ← and_or_left, or_comm]

/-! ## Renaming -/

/-- Numbers of a name and of the name that it is renamed to. -/
def Tied (rename : String → String) (a b : Document) (p q : Nat) : Prop :=
  ∃ name, (stateNames a)[p]? = some name ∧ (stateNames b)[q]? = some (rename name)

namespace Alike

theorem counterparts (alike : Alike rename a b) (readA : ofDocument a = .ok n)
    (readB : ofDocument b = .ok m) : Counterparts n m (Tied rename a b) where
  start := ⟨a.start, start_stateNames a, alike.start ▸ start_stateNames b⟩
  unique p q q' := by
    rintro ⟨name, here, there⟩ ⟨name', here', there'⟩
    obtain rfl : name = name' := Option.some.inj (here.symm.trans here')
    exact unique_position q q' there there'
  injective p p' q := by
    rintro ⟨name, here, there⟩ ⟨name', here', there'⟩
    have renamed : rename name = rename name' := Option.some.inj (there.symm.trans there')
    -- The renaming is injective on names that are listed, and only listed names have a number.
    have listed := (mem_stateNames_iff readA).1 (List.mem_of_getElem? here)
    have listed' := (mem_stateNames_iff readA).1 (List.mem_of_getElem? here')
    obtain rfl := alike.injective name listed name' listed' renamed
    exact unique_position p p' here here'
  forth e edge := by
    have h := readFrom_ofDocument readA
    obtain ⟨row, -, described⟩ := (exists_describes h.edges).2 e edge
    have step : HasStep a ⟨row.source, e.label, row.target⟩ :=
      h.hasStep_iff.2 ⟨e, edge, described.source, rfl, described.target⟩
    have renamed := (alike.steps _).2 ⟨_, step, rfl⟩
    obtain ⟨f, edge', source, label, target⟩ := (readFrom_ofDocument readB).hasStep_iff.1 renamed
    exact ⟨f, edge', ⟨_, described.source, source⟩, label.symm, ⟨_, described.target, target⟩⟩
  back f edge := by
    have h := readFrom_ofDocument readB
    obtain ⟨row, -, described⟩ := (exists_describes h.edges).2 f edge
    have step : HasStep b ⟨row.source, f.label, row.target⟩ :=
      h.hasStep_iff.2 ⟨f, edge, described.source, rfl, described.target⟩
    obtain ⟨s, original, same⟩ := (alike.steps _).1 step
    obtain ⟨named, labelled, named'⟩ := Step.mk.inj same
    obtain ⟨e, edge', source, label, target⟩ := (readFrom_ofDocument readA).hasStep_iff.1 original
    exact ⟨e, edge', ⟨_, source, named ▸ described.source⟩, label.trans labelled.symm,
      ⟨_, target, named' ▸ described.target⟩⟩
  accepting p q := by
    rintro ⟨name, here, there⟩
    have listed := (mem_stateNames_iff readA).1 (List.mem_of_getElem? here)
    rw [(readFrom_ofDocument readA).isAccepting, (readFrom_ofDocument readB).isAccepting]
    constructor
    · rintro ⟨name', mem, here'⟩
      obtain rfl : name = name' := Option.some.inj (here.symm.trans here')
      exact ⟨rename name, (alike.accepting _).2 ⟨name, mem, rfl⟩, there⟩
    · rintro ⟨name', mem, there'⟩
      obtain ⟨original, marked, renamed⟩ := (alike.accepting name').1 mem
      have same : rename original = rename name :=
        renamed.trans (Option.some.inj (there'.symm.trans there))
      have listed' := accepting_mem_states readA marked
      obtain rfl := alike.injective original listed' name listed same
      exact ⟨original, marked, here⟩

theorem size_eq (alike : Alike rename a b) (readA : ofDocument a = .ok n)
    (readB : ofDocument b = .ok m) : n.size = m.size := by
  have nodup : ((stateNames a).map rename).Nodup := by
    apply List.Nodup.map_on _ (nodup_stateNames a)
    intro s mem t mem' same
    rw [mem_stateNames_iff readA] at mem mem'
    exact alike.injective s mem t mem' same
  have perm : ((stateNames a).map rename).Perm (stateNames b) := by
    rw [List.perm_ext_iff_of_nodup nodup (nodup_stateNames b)]
    intro t
    simp only [List.mem_map, mem_stateNames_iff readA, mem_stateNames_iff readB, alike.states]
  have lengths := perm.length_eq
  rw [List.length_map] at lengths
  rw [size_ofDocument readA, size_ofDocument readB, lengths]

theorem alphabet_eq (alike : Alike rename a b) (readA : ofDocument a = .ok n)
    (readB : ofDocument b = .ok m) : n.alphabet = m.alphabet := by
  have h := readFrom_ofDocument readA
  have h' := readFrom_ofDocument readB
  apply h.wellFormed.increasing.ext h'.wellFormed.increasing
  intro c
  rw [h.mem_alphabet_iff, h'.mem_alphabet_iff, alike.symbols]
  have labels : (∃ s, HasStep b s ∧ s.label = .symbol c) ↔
      ∃ s, HasStep a s ∧ s.label = .symbol c := by
    simp only [alike.steps]
    constructor
    · rintro ⟨_, ⟨s, step, rfl⟩, label⟩
      exact ⟨s, step, label⟩
    · rintro ⟨s, step, label⟩
      exact ⟨_, ⟨s, step, rfl⟩, label⟩
  rw [labels]

/-- Neither the names nor the order in which things are listed play a part. -/
theorem determinize_eq (alike : Alike rename a b) (readA : ofDocument a = .ok n)
    (readB : ofDocument b = .ok m) (settings : Subset.Settings) :
    n.determinize settings = m.determinize settings := by
  have wf := (readFrom_ofDocument readA).wellFormed
  have wf' := (readFrom_ofDocument readB).wellFormed
  have same := (alike.counterparts readA readB).sameRuns wf wf'
  apply same.determinize_eq (alike.size_eq readA readB)
  rw [inferAlphabet_eq wf, inferAlphabet_eq wf', alike.alphabet_eq readA readB]

end Alike

end RegularLanguages.Nfa
