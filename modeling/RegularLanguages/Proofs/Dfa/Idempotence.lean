import Mathlib.Data.List.Permutation
import RegularLanguages.Proofs.Dfa.Minimize
import RegularLanguages.Proofs.Dfa.Named

/-! # Minimizing a minimized automaton

Minimizing leaves what is written of an automaton as it is exactly if no two
states are indistinguishable (`document_minimize_eq_iff`).  Every group then has
one member, and a group with one member keeps its name whatever the characters
in it are, so no name is joined or marked a second time.  The numbers of the
states may change, but a document does not show them.  What minimizing gives is
such an automaton. -/
set_option autoImplicit false
namespace RegularLanguages.Dfa

variable {d m : Dfa} {groups : List (List Nat)} {taken : List String} {g q : Nat}

/-! ## States that are alone -/

theorem namesFrom_of_single (there : groups[g]? = some [q]) :
    (d.namesFrom taken groups)[g]? = some (d.idOf q) := by
  fun_induction namesFrom d taken groups generalizing g
  case case1 => cases there
  case case2 taken p rest ih =>
    cases g with
    | zero =>
        obtain rfl : p = q := by simpa using there
        rfl
    | succ g => exact ih there
  case case3 taken group rest several name ih =>
    cases g with
    | zero => exact absurd (Option.some.inj there) (several q)
    | succ g => exact ih there

theorem Reduced.alone (reduced : Reduced d) (wf : WellFormed d) (lt : q < d.size) :
    d.equivalenceGroups[groupOf d.equivalenceGroups q]? = some [q] := by
  have parts := (sound_equivalenceGroups wf).parts
  obtain ⟨group, there, mem⟩ := parts.exists_group lt
  have only : ∀ p ∈ group, p = q := by
    intro p memP
    have ltP := parts.mem there memP
    have together := parts.groupOf_eq there memP
    exact reduced p ltP q lt ((groupOf_equivalenceGroups_eq_iff wf ltP lt).1 together)
  have nodup : group.Nodup :=
    (List.nodup_flatten.1 parts.nodup).1 group (List.mem_of_getElem? there)
  have single : group = [q] := by
    refine List.perm_singleton.1 ((List.perm_ext_iff_of_nodup nodup (List.nodup_singleton q)).2 ?_)
    exact fun p => ⟨fun memP => List.mem_singleton.2 (only p memP),
      fun same => List.mem_singleton.1 same ▸ mem⟩
  rw [there, single]

theorem Reduced.idOf_mergedState (reduced : Reduced d) (wf : WellFormed d)
    (ok : d.minimize = .ok m) (lt : q < d.size) : m.idOf (d.mergedState q) = d.idOf q := by
  rw [idOf_eq, ids_mergedState wf ok lt, groupNames, namesFrom_of_single (reduced.alone wf lt),
    Option.getD_some]

/-! ## The parts of the result -/

theorem exists_state_minimize {P : Nat → Prop} (wf : WellFormed d) (ok : d.minimize = .ok m) :
    (∃ i < m.size, P i) ↔ ∃ q < d.size, P (d.mergedState q) := by
  constructor
  · rintro ⟨i, lt, holds⟩
    obtain ⟨q, ltQ, rfl⟩ := exists_mergedState wf ok lt
    exact ⟨q, ltQ, holds⟩
  · rintro ⟨q, lt, holds⟩
    exact ⟨d.mergedState q, mergedState_lt wf ok lt, holds⟩

theorem exists_edge_minimize {P : Edge → Prop} (wf : WellFormed d) (ok : d.minimize = .ok m) :
    (∃ e ∈ m.edges, P e) ↔
      ∃ f ∈ d.edges, P ⟨d.mergedState f.source, f.symbol, d.mergedState f.target⟩ := by
  constructor
  · rintro ⟨e, edge, holds⟩
    obtain ⟨f, original, source, symbol, target⟩ := (mem_edges_minimize wf ok).1 edge
    refine ⟨f, original, ?_⟩
    rw [source, symbol, target]
    exact holds
  · rintro ⟨f, edge, holds⟩
    refine ⟨⟨d.mergedState f.source, f.symbol, d.mergedState f.target⟩, ?_, holds⟩
    exact (mem_edges_minimize wf ok).2 ⟨f, edge, rfl, rfl, rfl⟩

theorem Reduced.sameParts (reduced : Reduced d) (wf : WellFormed d) (ok : d.minimize = .ok m) :
    SameParts m d := by
  have merged := merged_minimize wf ok
  have keeps : Morphism d m d.mergedState := merged.morphism
  have named : ∀ q < d.size, m.idOf (d.mergedState q) = d.idOf q := fun _ =>
    reduced.idOf_mergedState wf ok
  refine ⟨?_, fun id => ?_, fun id => ?_, fun row => ?_, merged.alphabet⟩
  · have start := named 0 wf.size_pos
    rwa [keeps.start] at start
  · rw [mem_ids, mem_ids, exists_state_minimize wf ok]
    refine exists_congr fun q => and_congr_right fun lt => ?_
    rw [named q lt]
  · rw [mem_accepting_document, mem_accepting_document, exists_state_minimize wf ok]
    refine exists_congr fun q => and_congr_right fun lt => ?_
    rw [keeps.accepting q lt, named q lt]
  · rw [mem_transitions_document, mem_transitions_document, exists_edge_minimize wf ok]
    refine exists_congr fun f => and_congr_right fun edge => ?_
    rw [Dfa.row, Dfa.row, named _ (wf.ends f edge).1, named _ (wf.ends f edge).2]

/-- If no two states become one, none were indistinguishable. -/
theorem reduced_of_size_le (wf : WellFormed d) (ok : d.minimize = .ok m)
    (kept : d.size ≤ m.size) : Reduced d := by
  intro p ltP q ltQ same
  let state : Fin d.size → Fin m.size := fun q => ⟨d.mergedState q, mergedState_lt wf ok q.isLt⟩
  have onto : Function.Surjective state := by
    intro i
    obtain ⟨q, lt, eq⟩ := exists_mergedState wf ok i.isLt
    exact ⟨⟨q, lt⟩, Fin.ext eq⟩
  have card : Fintype.card (Fin d.size) = Fintype.card (Fin m.size) := by
    rw [Fintype.card_fin, Fintype.card_fin]
    exact Nat.le_antisymm kept (size_minimize_le wf ok)
  have injective := ((Fintype.bijective_iff_surjective_and_card state).2 ⟨onto, card⟩).1
  have merged : state ⟨p, ltP⟩ = state ⟨q, ltQ⟩ :=
    Fin.ext ((mergedState_eq_iff wf ltP ltQ).2 same)
  exact congrArg Fin.val (injective merged)

/-- Minimizing leaves the document as it is exactly if there is nothing to merge. -/
theorem document_minimize_eq_iff (wf : WellFormed d) (ok : d.minimize = .ok m) :
    m.document = d.document ↔ Reduced d := by
  constructor
  · intro same
    refine reduced_of_size_le wf ok (Nat.le_of_eq ?_)
    rw [← length_states_document, ← length_states_document, same]
  · intro reduced
    exact (document_eq_iff (merged_minimize wf ok).wellFormed wf).2 (reduced.sameParts wf ok)

/-- Minimizing a second time changes nothing that is written, names included; the
first time does only where there is something to merge.  It adds neither states
nor transitions. -/
theorem minimize_idempotent (built : Built d) :
    ∃ m n, d.minimize = .ok m ∧ m.minimize = .ok n ∧ n.document = m.document ∧
      (m.document = d.document ↔ Reduced d) ∧
      m.size ≤ d.size ∧ m.transitions.length ≤ d.transitions.length := by
  have wf := built.wellFormed
  obtain ⟨m, ok, merged⟩ := exists_minimize wf
  obtain ⟨n, again, -⟩ := exists_minimize merged.wellFormed
  have same : n.document = m.document :=
    (document_minimize_eq_iff merged.wellFormed again).2 (reduced_minimize wf ok)
  exact ⟨m, n, ok, again, same, document_minimize_eq_iff wf ok, size_minimize_le wf ok,
    length_transitions_minimize_le wf ok⟩

/-- Two states to merge, and a third whose name is what theirs are joined to. -/
def twins : Dfa where
  states := [⟨"s", false⟩, ⟨"p", true⟩, ⟨"q", true⟩, ⟨"p,q", false⟩]
  edges := [⟨3, 'a', 2⟩, ⟨0, 'b', 2⟩, ⟨0, 'a', 1⟩]
  alphabet := ['a', 'b']

theorem built_twins : Built twins := by
  have named := (((Built.new [] "s").addState "p").addState "q").addState "p,q"
  have states := (named.setAccepting (q := 1) (by decide)).setAccepting (q := 2) (by decide)
  have first := states.addTransition (e := ⟨0, 'a', 1⟩) (by decide) (by decide) rfl
  have second := first.addTransition (e := ⟨0, 'b', 2⟩) (by decide) (by decide) rfl
  exact second.addTransition (e := ⟨3, 'a', 2⟩) (by decide) (by decide) rfl

theorem minimize_idempotent_twins : Built twins ∧ ∃ m n, twins.minimize = .ok m ∧
    m.minimize = .ok n ∧ m.ids = ["s", "p,q'", "p,q"] ∧ n.document = m.document := by
  obtain ⟨m, n, ok, again, same, -, -, -⟩ := minimize_idempotent built_twins
  have names : twins.minimize.map ids = .ok ["s", "p,q'", "p,q"] := by cbv
  rw [ok] at names
  exact ⟨built_twins, m, n, ok, again, Except.ok.inj names, same⟩

end RegularLanguages.Dfa
