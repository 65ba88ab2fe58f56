import RegularLanguages.Proofs.Dfa.Document
import RegularLanguages.Proofs.Nfa.Minimal
import RegularLanguages.Service.Conversion

/-! # What a pattern is answered with

The checks are made in order, and a pattern that passes them is answered with an
automaton or with the error that it has too many states.  The automaton accepts
the words of the pattern over its alphabet, whether or not it is minimized, and
so does its written form; the verdicts on the samples say the same
(`Answers`). -/
set_option autoImplicit false
namespace RegularLanguages.Settings

variable {s : Settings} {n : Nfa} {d : Dfa} {request : PatternRequest} {r : Regex}

/-! ## Determinization -/

structure Recognizes (d : Dfa) (characters : List Char) (language : List Char → Prop) : Prop where
  wellFormed : Dfa.WellFormed d
  alphabet : d.alphabet = characters
  accepts : ∀ word, d.accepts word = true ↔ language word ∧ ∀ c ∈ word, c ∈ characters

/-- Determinizing gives up at the limit or succeeds.  Minimizing, where it is
set, succeeds and changes no verdict. -/
theorem determinize_outcome (s : Settings) (wf : Nfa.WellFormed n) :
    (∃ limit, s.maxDfaStates = some limit ∧ s.determinize n = .error (.stateLimit ⟨limit⟩)) ∨
      ∃ d, s.determinize n = .ok d ∧
        Recognizes d (n.inferAlphabet s.fallbackAlphabet) (n.accepts · = true) := by
  rw [determinize]
  cases found : n.determinize s.determinization with
  | error e => exact .inl ⟨e.limit, Nfa.determinize_error found, rfl⟩
  | ok d =>
      right
      have whole := Nfa.wellFormed_determinize wf found
      have alphabet := Nfa.alphabet_determinize found
      have accepts : ∀ word, d.accepts word = true ↔ n.accepts word = true ∧
          ∀ c ∈ word, c ∈ n.inferAlphabet s.fallbackAlphabet :=
        fun _ => Nfa.accepts_determinize wf found
      cases s.minimize with
      | false => exact ⟨d, rfl, whole, alphabet, accepts⟩
      | true =>
          obtain ⟨m, ok, merged⟩ := Dfa.exists_minimize whole
          refine ⟨m, by simp only [ok, if_true], merged.wellFormed,
            merged.alphabet.trans alphabet, fun word => ?_⟩
          rw [Dfa.accepts_minimize whole ok]
          exact accepts word

/-! ## Answers -/

/-- Every asked string has the verdict that the language gives, in the order in
which they were asked. -/
def Judges (language : List Char → Prop) :
    Option (List String) → Option (List SampleResult) → Prop :=
  Option.Rel (List.Forall₂ fun asked result =>
    result.string = asked ∧ (result.accepted = true ↔ language asked.toList))

def Means (s : Settings) (r : Regex) (word : List Char) : Prop :=
  word ∈ r.language ∧ ∀ c ∈ word, c ∈ r.alphabet s.fallbackAlphabet

structure Answers (s : Settings) (request : PatternRequest) (r : Regex) (response : DfaResponse) :
    Prop where
  pattern : response.pattern = some request.pattern
  alphabet : response.dfa.alphabet = (r.alphabet s.fallbackAlphabet).map Char.toString
  sorted : OrderedSet.Increasing (r.alphabet s.fallbackAlphabet)
  characters : ∀ c, c ∈ r.alphabet s.fallbackAlphabet ↔
    Regex.Subtree (.lit c) r ∨ ((∀ other, ¬ Regex.Subtree (.lit other) r) ∧ c ∈ s.fallbackAlphabet)
  deterministic : ∀ row ∈ response.dfa.transitions, ∀ other ∈ response.dfa.transitions,
    row.source = other.source → row.symbol = other.symbol → row = other
  accepts : ∀ word, response.dfa.Accepts readsLiterally word ↔ s.Means r word
  results : Judges (s.Means r) request.samples.strings? response.results

theorem judges_runSamples {language : List Char → Prop}
    (accepts : ∀ word, d.accepts word = true ↔ language word) (samples : Samples) :
    Judges language samples.strings? (d.runSamples samples) := by
  rw [Dfa.runSamples]
  cases samples.strings? with
  | none => exact .none
  | some strings =>
      refine .some ?_
      rw [List.forall₂_map_right_iff]
      exact List.forall₂_same.2 fun asked _ => ⟨rfl, accepts asked.toList⟩

theorem answers_of_recognizes
    (h : Recognizes d (r.alphabet s.fallbackAlphabet) (· ∈ r.language)) (request : PatternRequest) :
    Answers s request r ⟨some request.pattern, d.document, d.runSamples request.samples⟩ where
  pattern := rfl
  alphabet := congrArg (List.map Char.toString) h.alphabet
  sorted := r.increasing_alphabet _
  characters _ := Regex.mem_alphabet
  deterministic _ mem _ mem' := Dfa.deterministic_document h.wellFormed mem mem'
  accepts word := (Dfa.accepts_document h.wellFormed).trans (h.accepts word)
  results := judges_runSamples h.accepts request.samples

/-! ## Patterns -/

def Fits (s : Settings) (pattern : String) : Prop :=
  ∀ limit, s.maxPatternLength = some limit → pattern.length ≤ limit

theorem exceededLength?_eq_some {pattern : String} {limit : Nat} :
    s.exceededLength? pattern = some limit ↔
      s.maxPatternLength = some limit ∧ limit < pattern.length := by
  simp [exceededLength?]

theorem exceededLength?_eq_none {pattern : String} :
    s.exceededLength? pattern = none ↔ s.Fits pattern := by
  simp [exceededLength?, Fits]

theorem determinize_thompson_outcome (s : Settings) (r : Regex) :
    (∃ limit, s.maxDfaStates = some limit ∧
      s.determinize (.thompson r) = .error (.stateLimit ⟨limit⟩)) ∨
      ∃ d, s.determinize (.thompson r) = .ok d ∧
        Recognizes d (r.alphabet s.fallbackAlphabet) (· ∈ r.language) := by
  refine (determinize_outcome s (Nfa.wellFormed_thompson r)).imp_right ?_
  rintro ⟨d, ok, whole, alphabet, accepts⟩
  have inferred := Nfa.Builder.inferAlphabet_build .thompson r s.fallbackAlphabet
  refine ⟨d, ok, whole, alphabet.trans inferred, fun word => (accepts word).trans ?_⟩
  rw [← inferred]
  exact and_congr_left' (Nfa.Builder.accepts_build (b := .thompson))

inductive Outcome (s : Settings) (request : PatternRequest) :
    Except ServiceError DfaResponse → Prop where
  | blank : Text.isBlank request.pattern = true → Outcome s request (.error .emptyPattern)
  | long {limit : Nat} : Text.isBlank request.pattern = false →
      s.maxPatternLength = some limit → limit < request.pattern.length →
        Outcome s request (.error (.patternTooLong request.pattern.length limit))
  | unread {e : Regex.ParseError} : Text.isBlank request.pattern = false →
      s.Fits request.pattern → Regex.parse request.pattern = .error e →
        Outcome s request (.error (.parse e))
  | large {r : Regex} {limit : Nat} : Text.isBlank request.pattern = false →
      s.Fits request.pattern → Regex.parse request.pattern = .ok r →
        s.maxDfaStates = some limit → Outcome s request (.error (.stateLimit ⟨limit⟩))
  | answered {r : Regex} {response : DfaResponse} : Text.isBlank request.pattern = false →
      s.Fits request.pattern → Regex.parse request.pattern = .ok r →
        Answers s request r response → Outcome s request (.ok response)

theorem outcome_patternToDfa (s : Settings) (request : PatternRequest) :
    Outcome s request (s.patternToDfa request) := by
  rw [patternToDfa, dfaOfPattern]
  cases more : Text.isBlank request.pattern with
  | true => exact .blank more
  | false =>
      cases exceeded : s.exceededLength? request.pattern with
      | some limit =>
          obtain ⟨set, above⟩ := exceededLength?_eq_some.1 exceeded
          exact .long more set above
      | none =>
          have fits := exceededLength?_eq_none.1 exceeded
          cases parsed : Regex.parse request.pattern with
          | error e => exact .unread more fits parsed
          | ok r =>
              rcases determinize_thompson_outcome s r with ⟨limit, set, large⟩ | ⟨d, ok, means⟩
              · simp only [Bool.false_eq_true, if_false, large]
                exact .large more fits parsed set
              · simp only [Bool.false_eq_true, if_false, ok]
                exact .answered more fits parsed (answers_of_recognizes means request)

end RegularLanguages.Settings
