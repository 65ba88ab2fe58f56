import RegularLanguages.Proofs.Dfa.Elimination
import RegularLanguages.Proofs.Nfa.Built
import RegularLanguages.Proofs.Nfa.Rereading
import RegularLanguages.Proofs.Regex.Plain
import RegularLanguages.Proofs.Service.Pattern

/-! # Conversions one after the other

A pattern becomes a deterministic automaton at once, or by way of the written
automaton of its positions.  Both ways agree where the table has a way to write
every character of the pattern.

The pattern of a deterministic automaton becomes an automaton for the same words
again.  Its alphabet may be smaller, but no word needs more.  Only a blank
pattern is refused, and then it is the one word. -/
set_option autoImplicit false
namespace RegularLanguages.Settings

variable {s : Settings} {r : Regex} {n : Nfa} {d : Dfa} {doc table out : Document}
  {request : PatternRequest} {response : DfaResponse} {pattern : String}

/-! ## By way of positions -/

theorem answers_of_patternToDfa (parsed : Regex.parse request.pattern = .ok r)
    (ok : s.patternToDfa request = .ok response) : Answers s request r response := by
  have outcome := outcome_patternToDfa s request
  rw [ok] at outcome
  cases outcome with
  | answered _ _ parsed' answers =>
      rw [parsed] at parsed'
      obtain rfl := Except.ok.inj parsed'
      exact answers

theorem recognizes_of_nfaToDfa (ok : s.nfaToDfa table = .ok out) :
    ∃ n d, Nfa.ofDocument table = .ok n ∧ out = d.document ∧
      Recognizes d (n.inferAlphabet s.fallbackAlphabet) (n.accepts · = true) := by
  unfold nfaToDfa dfaOfNfa at ok
  cases read : Nfa.ofDocument table with
  | error e => simp [read, Except.map] at ok
  | ok n =>
      have wf := (Nfa.readFrom_ofDocument read).wellFormed
      simp only [read] at ok
      rcases determinize_outcome s wf with ⟨limit, -, large⟩ | ⟨d, made, recognizes⟩
      · simp [large, Except.map] at ok
      · rw [made] at ok
        obtain rfl := Except.ok.inj ok
        exact ⟨n, d, rfl, rfl, recognizes⟩

theorem exists_answers (length : s.maxPatternLength = none) (states : s.maxDfaStates = none)
    (notBlank : Text.isBlank request.pattern = false)
    (parsed : Regex.parse request.pattern = .ok r) :
    ∃ response, s.patternToDfa request = .ok response ∧ Answers s request r response := by
  have outcome := outcome_patternToDfa s request
  cases answer : s.patternToDfa request with
  | ok response => exact ⟨response, rfl, answers_of_patternToDfa parsed answer⟩
  | error e =>
      rw [answer] at outcome
      cases outcome with
      | blank blank => simp [notBlank] at blank
      | long _ set _ => simp [length] at set
      | unread _ _ unread => simp [parsed] at unread
      | large _ _ _ set => simp [states] at set

theorem exists_nfaToDfa (states : s.maxDfaStates = none) (read : Nfa.ofDocument table = .ok n) :
    ∃ out, s.nfaToDfa table = .ok out := by
  rcases determinize_outcome s (Nfa.readFrom_ofDocument read).wellFormed with
    ⟨limit, set, -⟩ | ⟨d, made, -⟩
  · simp [states] at set
  · refine ⟨d.document, ?_⟩
    unfold nfaToDfa dfaOfNfa
    rw [read]
    simp only [made]
    rfl

theorem ofPositions_of_patternToPositions (parsed : Regex.parse pattern = .ok r)
    (ok : s.patternToPositions pattern = .ok table) : table = (Nfa.ofPositions r).document := by
  unfold patternToPositions at ok
  rw [parsed] at ok
  exact (Except.ok.inj ok).symm

/-- Without the characters that a table has no way to write, the automaton of a
pattern and the one that its positions lead to have the same alphabet and accept
the same words. -/
theorem routes_agree (s : Settings) (parsed : Regex.parse request.pattern = .ok r)
    (plain : ∀ c ∈ ['.', 'ε', 'λ'], ¬Regex.Subtree (.lit c) r)
    (direct : s.patternToDfa request = .ok response)
    (written : s.patternToPositions request.pattern = .ok table)
    (reread : s.nfaToDfa table = .ok out) :
    response.dfa.alphabet = out.alphabet ∧
      ∀ word, response.dfa.Accepts readsLiterally word ↔ out.Accepts readsLiterally word := by
  have answers := answers_of_patternToDfa parsed direct
  obtain rfl := ofPositions_of_patternToPositions parsed written
  obtain ⟨n, d, read, rfl, recognizes⟩ := recognizes_of_nfaToDfa reread
  have wf := Nfa.wellFormed_ofPositions r
  have again := Nfa.reread_of_ofDocument wf read
  have literals : ∀ c ∈ ['.', 'ε', 'λ'], c ∉ (Nfa.ofPositions r).alphabet := by
    intro c reserved
    rw [Nfa.alphabet_ofPositions, Regex.mem_literals_iff_subtree]
    exact plain c reserved
  -- The fallback is taken on both ways or on neither.
  have alphabet : n.inferAlphabet s.fallbackAlphabet = r.alphabet s.fallbackAlphabet := by
    rw [Nfa.inferAlphabet_eq again.wellFormed, again.alphabet_eq literals wf,
      Nfa.alphabet_ofPositions, Regex.alphabet]
  constructor
  · rw [answers.alphabet, ← alphabet, ← recognizes.alphabet]
    rfl
  · intro word
    rw [answers.accepts, Dfa.accepts_document recognizes.wellFormed, recognizes.accepts, alphabet,
      again.accepts_eq literals wf, Nfa.accepts_ofPositions]
    rfl

structure Routes (pattern : String) (r : Regex) (response : DfaResponse) (table out : Document) :
    Prop where
  parsed : Regex.parse pattern = .ok r
  direct : patternToDfa {} ⟨pattern, .none⟩ = .ok response
  written : patternToPositions {} pattern = .ok table
  reread : nfaToDfa {} table = .ok out

theorem exists_routes (notBlank : Text.isBlank pattern = false)
    (parsed : Regex.parse pattern = .ok r) :
    ∃ response table out, Routes pattern r response table out := by
  obtain ⟨response, direct, -⟩ : ∃ response, patternToDfa {} ⟨pattern, .none⟩ = .ok response ∧
      Answers {} ⟨pattern, .none⟩ r response := exists_answers rfl rfl notBlank parsed
  have written : patternToPositions {} pattern = .ok (Nfa.ofPositions r).document := by
    unfold patternToPositions
    rw [parsed]
  obtain ⟨n, read⟩ := Nfa.exists_ofDocument_document (Nfa.wellFormed_ofPositions r)
  obtain ⟨out, reread⟩ := exists_nfaToDfa (s := {}) rfl read
  exact ⟨response, _, out, parsed, direct, written, reread⟩

theorem routes_agree_wildcard : ∃ r response table out, Routes "a.b*" r response table out ∧
    (∀ c ∈ ['.', 'ε', 'λ'], ¬Regex.Subtree (.lit c) r) ∧
    response.dfa.alphabet = out.alphabet ∧
    ∀ word, response.dfa.Accepts readsLiterally word ↔ out.Accepts readsLiterally word := by
  have parsed : Regex.parse "a.b*" = .ok (.cat [.lit 'a', .any, .star (.lit 'b')]) := rfl
  have plain : ∀ c ∈ ['.', 'ε', 'λ'],
      ¬Regex.Subtree (.lit c) (.cat [.lit 'a', .any, .star (.lit 'b')]) := by
    simp only [← Regex.mem_literals_iff_subtree, List.forall_mem_cons]
    exact ⟨by decide, by decide, by decide, fun c mem => absurd mem List.not_mem_nil⟩
  obtain ⟨response, table, out, routes⟩ := exists_routes (by decide) parsed
  exact ⟨_, response, table, out, routes, plain,
    routes_agree {} routes.parsed plain routes.direct routes.written routes.reread⟩

/-- Not only `.` is read as something else.  A pattern of the one character `ε`
accepts that character alone, and the table of its positions the empty word. -/
theorem routes_differ_on_epsilon : ∃ r response table out, Routes "ε" r response table out ∧
    ¬Regex.Subtree (.lit '.') r ∧
    response.dfa.alphabet = ["ε"] ∧ out.alphabet = ["0", "1", "a", "b"] ∧
    ¬response.dfa.Accepts readsLiterally [] ∧ out.Accepts readsLiterally [] := by
  have parsed : Regex.parse "ε" = .ok (.lit 'ε') := rfl
  obtain ⟨response, table, out, routes⟩ := exists_routes (by decide) parsed
  have answers : Answers {} ⟨"ε", .none⟩ (.lit 'ε') response :=
    answers_of_patternToDfa parsed routes.direct
  obtain rfl := ofPositions_of_patternToPositions parsed routes.written
  obtain ⟨n, d, read, rfl, recognizes⟩ := recognizes_of_nfaToDfa routes.reread
  have again := Nfa.reread_of_ofDocument (Nfa.wellFormed_ofPositions (.lit 'ε')) read
  refine ⟨_, response, _, _, routes, ?_, ?_, ?_, ?_, ?_⟩
  · rw [← Regex.mem_literals_iff_subtree]
    decide
  · rw [answers.alphabet]
    decide
  · -- The only character is read as epsilon, so the fallback takes its place.
    have dropped : n.alphabet = [] := by
      rw [List.eq_nil_iff_forall_not_mem]
      intro c mem
      obtain ⟨plain, known⟩ := (again.mem_alphabet c).1 mem
      have only : c ∈ ['ε'] := known
      rw [List.mem_singleton.1 only] at plain
      exact plain (by decide)
    have alphabet : d.alphabet = OrderedSet.ofList Subset.defaultFallback := by
      rw [recognizes.alphabet, Nfa.inferAlphabet_eq again.wellFormed, if_pos dropped]
    simp only [Dfa.document, alphabet]
    decide
  · rw [answers.accepts]
    rintro ⟨mem, -⟩
    cases mem
  · have edge : ⟨0, .epsilon, 1⟩ ∈ n.edges := by
      rw [again.edges]
      refine List.mem_map.2 ⟨⟨0, .symbol 'ε', 1⟩, ?_, rfl⟩
      rw [List.mem_mergeSort]
      decide
    have accepting : n.isAccepting 1 = true := by
      rw [again.isAccepting]
      decide
    rw [Dfa.accepts_document recognizes.wellFormed, recognizes.accepts]
    refine ⟨?_, by simp⟩
    exact again.wellFormed.accepts_iff_hasAcceptingPath.2 ⟨1, accepting, .silent edge (.stay 1)⟩

/-! ## Back from a pattern -/

theorem means_iff (named : ¬Regex.Subtree .any r) {word : List Char} :
    s.Means r word ↔ word ∈ r.language := by
  unfold Means
  rw [and_iff_left_iff_imp]
  intro mem
  have labels : ∀ e ∈ (Nfa.ofPositions r).edges, e.label ≠ .any := by
    rintro ⟨p, label, q⟩ edge rfl
    -- The label of an edge is that of the position it leads to.
    apply named
    have found := List.mem_of_getElem? (Nfa.mem_edges_ofPositions.1 edge).1
    rw [(Positions.describes_ofRegex r 1).labels_eq] at found
    exact (Regex.mem_occurrences_iff_subtree Label.noConfusion).1 found
  obtain ⟨q, -, path⟩ := Nfa.hasAcceptingPath_ofPositions.2 mem
  rw [← Nfa.Builder.inferAlphabet_build .positions]
  exact (Nfa.wellFormed_ofPositions r).mem_inferAlphabet_of_path labels _ path

theorem patternToDfa_of_isBlank (blank : Text.isBlank request.pattern = true) :
    s.patternToDfa request = .error .emptyPattern := by
  unfold patternToDfa dfaOfPattern
  rw [if_pos blank]

theorem exists_render_of_dfaToPattern (ok : s.dfaToPattern doc = .ok pattern) :
    ∃ d r, Dfa.ofDocument doc = .ok d ∧ d.toRegex? = some r ∧ pattern = r.render := by
  unfold dfaToPattern patternOfDfa at ok
  split at ok
  · cases ok
  · next d read =>
    split at ok
    · cases ok
    · next r found => exact ⟨d, r, read, found, (Except.ok.inj ok).symm⟩

/-- Without limits the pattern that an automaton is turned into is turned into an
automaton for the same words, unless it is blank.  A blank pattern is refused,
and it is the only word that the automaton accepts. -/
theorem pattern_leads_back (length : s.maxPatternLength = none) (states : s.maxDfaStates = none)
    (ok : s.dfaToPattern doc = .ok pattern) (samples : Samples) :
    ∃ d, Dfa.ofDocument doc = .ok d ∧
      (Text.isBlank pattern = false → ∃ response, s.patternToDfa ⟨pattern, samples⟩ = .ok response ∧
        ∀ word, response.dfa.Accepts readsLiterally word ↔ d.accepts word = true) ∧
      (Text.isBlank pattern = true → s.patternToDfa ⟨pattern, samples⟩ = .error .emptyPattern ∧
        ∀ word, d.accepts word = true ↔ word = pattern.toList) := by
  obtain ⟨d, r, read, found, rfl⟩ := exists_render_of_dfaToPattern ok
  obtain ⟨describes, named, parses⟩ :=
    Dfa.describes_of_toRegex? (Dfa.wellFormed_ofDocument read) found
  refine ⟨d, read, ?_, ?_⟩
  · intro notBlank
    obtain ⟨response, answered, answers⟩ : ∃ response,
        s.patternToDfa ⟨r.render, samples⟩ = .ok response ∧
          Answers s ⟨r.render, samples⟩ r response := exists_answers length states notBlank parses
    refine ⟨response, answered, ?_⟩
    intro word
    rw [answers.accepts, means_iff named, describes]
  · intro blank
    refine ⟨patternToDfa_of_isBlank blank, ?_⟩
    intro word
    rw [← describes, Regex.language_of_isBlank blank]

def single (symbol : String) : Document where
  alphabet := [symbol]
  states := ["a", "b"]
  start := "a"
  accepting := ["b"]
  transitions := [⟨"a", symbol, "b"⟩]

theorem pattern_leads_back_single : dfaToPattern {} (single "*") = .ok "\\*" ∧
    ∃ d response, Dfa.ofDocument (single "*") = .ok d ∧
      patternToDfa {} ⟨"\\*", .none⟩ = .ok response ∧
      ∀ word, response.dfa.Accepts readsLiterally word ↔ d.accepts word = true := by
  have ok : dfaToPattern {} (single "*") = .ok "\\*" := rfl
  obtain ⟨d, read, accepted, -⟩ := pattern_leads_back rfl rfl ok .none
  obtain ⟨response, answered, same⟩ := accepted (by decide)
  exact ⟨ok, d, response, read, answered, same⟩

/-- The pattern of an automaton that accepts a space is a space, and refused. -/
theorem blank_pattern_is_refused : dfaToPattern {} (single " ") = .ok " " ∧
    patternToDfa {} ⟨" ", .none⟩ = .error .emptyPattern :=
  ⟨rfl, rfl⟩

end RegularLanguages.Settings
