import RegularLanguages.Proofs.Nfa.Document
import RegularLanguages.Proofs.Service.Pattern

/-! # The limit on the number of states

Determinizing stops before a state beyond the limit is added, and minimizing
adds none.  So a response has no more states than the limit allows, and a
request that would need more is refused.  The start state is added before the
limit is looked at: a limit of 0 lets an automaton of one state through. -/
set_option autoImplicit false
namespace RegularLanguages.Settings

open Dfa (length_states_document nodup_states_document)

variable {s : Settings} {n : Nfa} {limit : Nat}

/-- An answer is an automaton with a number of states in the bounds, or an error
other than a conflict of transitions. -/
inductive Sized (least most : Nat) : Except ServiceError Document → Prop where
  | answered {doc : Document} : doc.states.Nodup → least ≤ doc.states.length →
      doc.states.length ≤ most → Sized least most (.ok doc)
  | refused {e : ServiceError} : (∀ cause, e ≠ .conflict cause) → Sized least most (.error e)

theorem size_determinize_within (wf : Nfa.WellFormed n) (set : s.maxDfaStates = some limit)
    {d : Dfa} (ok : s.determinize n = .ok d) : d.size ≤ max limit 1 := by
  rw [determinize] at ok
  split at ok
  next => cases ok
  next found determinized =>
    have within : found.size ≤ max limit 1 := Nfa.size_determinize_le set determinized
    split at ok
    next =>
      split at ok
      next => cases ok
      next minimized =>
        obtain rfl := Except.ok.inj ok
        have whole := Nfa.wellFormed_determinize wf determinized
        exact (Dfa.size_minimize_le whole minimized).trans within
    next =>
      obtain rfl := Except.ok.inj ok
      exact within

theorem sized_determinize (wf : Nfa.WellFormed n) (set : s.maxDfaStates = some limit) :
    Sized 1 (max limit 1) ((s.determinize n).map Dfa.document) := by
  rcases determinize_outcome s wf with ⟨limit', -, large⟩ | ⟨d, ok, recognizes⟩
  · rw [large]
    exact .refused (by simp)
  · rw [ok]
    have whole := recognizes.wellFormed
    apply Sized.answered (nodup_states_document whole)
    · rw [length_states_document]
      exact whole.size_pos
    · rw [length_states_document]
      exact size_determinize_within wf set ok

theorem sized_dfaOfPattern (pattern : String) (set : s.maxDfaStates = some limit) :
    Sized 1 (max limit 1) ((s.dfaOfPattern pattern).map Dfa.document) := by
  rw [dfaOfPattern]
  split
  next => exact .refused (by simp)
  next =>
    split
    next => exact .refused (by simp)
    next =>
      split
      next => exact .refused (by simp)
      next r _ => exact sized_determinize (Nfa.wellFormed_thompson r) set

theorem sized_dfaOfNfa (doc : Document) (set : s.maxDfaStates = some limit) :
    Sized 1 (max limit 1) ((s.dfaOfNfa doc).map Dfa.document) := by
  rw [dfaOfNfa]
  split
  next => exact .refused (by simp)
  next n read => exact sized_determinize (Nfa.readFrom_ofDocument read).wellFormed set

theorem map_dfa_patternToDfa (s : Settings) (request : PatternRequest) :
    (s.patternToDfa request).map DfaResponse.dfa =
      (s.dfaOfPattern request.pattern).map Dfa.document := by
  rw [patternToDfa]
  cases s.dfaOfPattern request.pattern <;> rfl

/-- Under a limit that is not 0 a pattern or a table is answered with at most
that many states, and otherwise with an error.  Under a limit of 0 it is
answered with one state, if at all. -/
theorem states_within_limit (set : s.maxDfaStates = some limit) :
    (∀ request, Sized 1 (max limit 1) ((s.patternToDfa request).map DfaResponse.dfa)) ∧
      ∀ doc, Sized 1 (max limit 1) (s.nfaToDfa doc) := by
  constructor
  · intro request
    rw [map_dfa_patternToDfa]
    exact sized_dfaOfPattern request.pattern set
  · intro doc
    exact sized_dfaOfNfa doc set

/-- Two states are enough for one character and not for three. -/
theorem states_within_limit_two :
    ({ maxDfaStates := some 2 } : Settings).maxDfaStates = some 2 ∧
      (∃ response, patternToDfa { maxDfaStates := some 2 } ⟨"a", .none⟩ = .ok response ∧
        response.dfa.states.length ≤ 2) ∧
      patternToDfa { maxDfaStates := some 2 } ⟨"abc", .none⟩ = .error (.stateLimit ⟨2⟩) := by
  have sized := (states_within_limit (s := { maxDfaStates := some 2 }) rfl).1 ⟨"a", .none⟩
  obtain ⟨response, answered⟩ :
      ∃ response, patternToDfa { maxDfaStates := some 2 } ⟨"a", .none⟩ = .ok response := ⟨_, rfl⟩
  rw [answered] at sized
  refine ⟨rfl, ⟨response, answered, ?_⟩, rfl⟩
  cases sized with
  | answered _ _ most => exact most

/-- The pattern of the empty word is answered with one state where none is
allowed. -/
theorem start_state_exceeds_limit_zero : ∃ response,
    patternToDfa { maxDfaStates := some 0 } ⟨"()", .none⟩ = .ok response ∧
      response.dfa.states.length = 1 := by
  obtain ⟨d, made, size⟩ :
      ∃ d, dfaOfPattern { maxDfaStates := some 0 } "()" = .ok d ∧ d.size = 1 := ⟨_, rfl, rfl⟩
  refine ⟨⟨some "()", d.document, d.runSamples .none⟩, ?_, ?_⟩
  · rw [patternToDfa, made]
  · rw [length_states_document, size]

end RegularLanguages.Settings
