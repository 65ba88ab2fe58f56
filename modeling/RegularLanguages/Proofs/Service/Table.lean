import RegularLanguages.Proofs.Dfa.Elimination
import RegularLanguages.Proofs.Nfa.Document
import RegularLanguages.Proofs.Nfa.Renaming
import RegularLanguages.Proofs.Service.Pattern

/-! # What a table with free choice is answered with

A table is turned into an automaton or into a pattern, by way of the same
deterministic automaton.  So both requests are refused at the limit on the
number of states or neither is (`Refuses`), and minimizing has no part in that.
What they are answered with otherwise stands for the words that paths through
the table spell over its alphabet (`Converts`).  Tables that are alike up to the
names of their states get the same answers, letter for letter. -/
set_option autoImplicit false
namespace RegularLanguages.Settings

variable {s : Settings} {doc : Document} {n : Nfa} {d : Dfa} {words : List Char → Prop}

structure Over (s : Settings) (doc : Document) (alphabet : List Char) : Prop where
  increasing : OrderedSet.Increasing alphabet
  mem : ∀ c, c ∈ alphabet ↔ doc.Names c ∨ ((∀ b, ¬doc.Names b) ∧ c ∈ s.fallbackAlphabet)

def Refuses (s : Settings) (doc : Document) (limit : Nat) : Prop :=
  s.nfaToDfa doc = .error (.stateLimit ⟨limit⟩) ∧
    s.nfaToPattern doc = .error (.stateLimit ⟨limit⟩)

/-- The requests are answered with an automaton and a pattern for the words, or
in place of the pattern with the error that there is none. -/
structure Converts (s : Settings) (doc : Document) (words : List Char → Prop) : Prop where
  automaton : ∃ out, s.nfaToDfa doc = .ok out ∧
    ∀ word, out.Accepts readsLiterally word ↔ words word
  empty : s.nfaToPattern doc = .error .emptyLanguage ↔ ∀ word, ¬words word
  pattern : (∃ word, words word) → ∃ pattern r, s.nfaToPattern doc = .ok pattern ∧
    Regex.parse pattern = .ok r ∧ ∀ word, word ∈ r.language ↔ words word

theorem over_inferAlphabet (h : Nfa.ReadFrom doc n) (s : Settings) :
    s.Over doc (n.inferAlphabet s.fallbackAlphabet) where
  increasing := Nfa.increasing_inferAlphabet h.wellFormed s.fallbackAlphabet
  mem c := by
    have names : n.alphabet = [] ↔ ∀ b, ¬doc.Names b := by
      simp only [List.eq_nil_iff_forall_not_mem, h.mem_alphabet]
    rw [Nfa.inferAlphabet_eq h.wellFormed, ← names, ← h.mem_alphabet]
    by_cases empty : n.alphabet = []
    · simp [empty]
    · simp [empty]

theorem determinize_eq_stateLimit {e : StateLimitExceeded} :
    s.determinize n = .error (.stateLimit e) ↔ n.determinize s.determinization = .error e := by
  rw [determinize]
  cases n.determinize s.determinization with
  | error limit => simp
  | ok d =>
      cases s.minimize with
      | false => simp
      | true =>
          simp only [if_true]
          split <;> simp

theorem converts_of_dfaOfNfa (ok : s.dfaOfNfa doc = .ok d) (wf : Dfa.WellFormed d)
    (accepts : ∀ word, d.accepts word = true ↔ words word) : Converts s doc words := by
  have answer : s.nfaToPattern doc = patternOfDfa d := by rw [nfaToPattern, ok]
  have nowhere : d.toRegex? = none ↔ ∀ word, ¬words word := by
    simp only [Dfa.toRegex?_eq_none_iff wf, ← accepts, Bool.not_eq_true]
  refine ⟨⟨d.document, ?_, fun word => (Dfa.accepts_document wf).trans (accepts word)⟩, ?_, ?_⟩
  · rw [nfaToDfa, ok]
    rfl
  · rw [answer, patternOfDfa, ← nowhere]
    cases d.toRegex? <;> simp
  · rintro ⟨word, accepted⟩
    cases found : d.toRegex? with
    | none => exact absurd accepted (nowhere.1 found word)
    | some r =>
        obtain ⟨describes, -, parses⟩ := Dfa.describes_of_toRegex? wf found
        refine ⟨r.render, r, ?_, parses, fun word => (describes word).trans (accepts word)⟩
        rw [answer, patternOfDfa, found]

/-- A table that is read is turned into an automaton and a pattern for the words
that its paths spell over its alphabet.  There is no pattern exactly if there is
no word, and no answer but the limit where determinizing exceeds it.  Whether
the automaton is minimized makes no difference to this. -/
theorem table_converts (s : Settings) (read : Nfa.ofDocument doc = .ok n) :
    ∃ alphabet, s.Over doc alphabet ∧
      ((∃ limit, s.maxDfaStates = some limit ∧
          ∀ minimize, Refuses { s with minimize } doc limit) ∨
        ∀ minimize, Converts { s with minimize } doc (doc.Accepts (readsAsLabel alphabet))) := by
  have h := Nfa.readFrom_ofDocument read
  refine ⟨_, over_inferAlphabet h s, ?_⟩
  have dfaOfNfa : ∀ minimize, dfaOfNfa { s with minimize } doc =
      determinize { s with minimize } n := fun _ => by rw [Settings.dfaOfNfa, read]
  cases found : n.determinize s.determinization with
  | error e =>
      refine .inl ⟨e.limit, Nfa.determinize_error found, fun minimize => ?_⟩
      have refused : determinize { s with minimize } n = .error (.stateLimit e) :=
        determinize_eq_stateLimit.2 found
      constructor
      · rw [nfaToDfa, dfaOfNfa, refused]
        rfl
      · rw [nfaToPattern, dfaOfNfa, refused]
  | ok d =>
      refine .inr fun minimize => ?_
      rcases determinize_outcome { s with minimize } h.wellFormed with
        ⟨limit, -, large⟩ | ⟨m, ok, recognizes⟩
      · have same := (determinize_eq_stateLimit.1 large).symm.trans found
        cases same
      · refine converts_of_dfaOfNfa ((dfaOfNfa minimize).trans ok) recognizes.wellFormed
          fun word => ?_
        rw [recognizes.accepts, h.accepts_iff]

/-- Nothing is read on a cycle through the start, a name and a transition are
listed twice, and some entries of the alphabet are no characters. -/
def loops : Document where
  alphabet := ["b", "ε", "bb"]
  states := ["p", "q", "p", "r"]
  start := "q"
  accepting := ["r"]
  transitions :=
    [⟨"q", "λ", "p"⟩, ⟨"p", "", "q"⟩, ⟨"p", ".", "p"⟩, ⟨"p", "a", "r"⟩, ⟨"p", "a", "r"⟩]

theorem table_converts_loops : ∃ n alphabet, Nfa.ofDocument loops = .ok n ∧
    Over {} loops alphabet ∧
    (∀ minimize, Converts { minimize } loops (loops.Accepts (readsAsLabel alphabet))) ∧
    loops.Accepts (readsAsLabel alphabet) ['b', 'a'] := by
  obtain ⟨n, read, accepted⟩ :
      ∃ n, Nfa.ofDocument loops = .ok n ∧ n.accepts ['b', 'a'] = true := ⟨_, rfl, by decide⟩
  obtain ⟨alphabet, characters, answers⟩ := table_converts {} read
  have converts := answers.resolve_left fun ⟨_, set, _⟩ => Option.some_ne_none _ set.symm
  have a : 'a' ∈ alphabet := (characters.mem 'a').2 <|
    .inl ⟨by decide, .inl ⟨⟨"p", "a", "r"⟩, by decide, by decide⟩⟩
  have b : 'b' ∈ alphabet := (characters.mem 'b').2 <|
    .inl ⟨by decide, .inr ⟨"b", by decide, by decide⟩⟩
  exact ⟨n, alphabet, read, characters, converts,
    (Nfa.readFrom_ofDocument read).accepts_iff.2 ⟨accepted, by simp [a, b]⟩⟩

/-! ## Tables that are alike -/

section Alike

open Nfa

variable {m : Nfa} {rename : String → String} {a b : Document}

theorem dfaOfNfa_eq (s : Settings) (alike : Alike rename a b) (readA : Nfa.ofDocument a = .ok n)
    (readB : Nfa.ofDocument b = .ok m) : s.dfaOfNfa a = s.dfaOfNfa b := by
  unfold dfaOfNfa
  rw [readA, readB]
  simp only [determinize, alike.determinize_eq readA readB]

/-- Tables that are alike are answered alike, also where they are refused. -/
theorem alike_tables_answered_alike (s : Settings) (alike : Alike rename a b)
    (readA : Nfa.ofDocument a = .ok n) (readB : Nfa.ofDocument b = .ok m) :
    s.nfaToDfa a = s.nfaToDfa b ∧ s.nfaToPattern a = s.nfaToPattern b := by
  have same := s.dfaOfNfa_eq alike readA readB
  constructor
  · unfold nfaToDfa
    rw [same]
  · unfold nfaToPattern
    rw [same]

/-- The names, the order and the repetitions of `loops` are changed here, and
the other of two ways to write that nothing is read is taken. -/
def loopsRelisted : Document where
  alphabet := ["λ", "b"]
  states := ["out", "left", "start"]
  start := "start"
  accepting := ["out", "out"]
  transitions :=
    [⟨"left", "a", "out"⟩, ⟨"left", "ε", "start"⟩, ⟨"left", ".", "left"⟩, ⟨"start", "", "left"⟩]

def relist (name : String) : String :=
  if name = "q" then "start" else if name = "p" then "left" else "out"

theorem alike_loops : Alike relist loops loopsRelisted where
  injective := by decide
  start := rfl
  states t := by
    simp [loops, loopsRelisted, relist]
    tauto
  accepting t := by simp [loops, loopsRelisted, relist, eq_comm]
  steps t := by
    obtain ⟨a, l, b⟩ := t
    simp only [HasStep, loops, loopsRelisted, relist, Label.ofText, Label.ofChar, List.mem_cons,
      List.not_mem_nil, or_false, or_self, exists_eq_or_imp, String.reduceToList, Char.reduceEq,
      imp_self, Except.ok.injEq, ↓existsAndEq, String.toList_empty, true_and, Step.mk.injEq]
    constructor
    · rintro (⟨rfl, rfl, rfl⟩ | ⟨rfl, rfl, rfl⟩ | ⟨rfl, rfl, rfl⟩ | ⟨rfl, rfl, rfl⟩)
      · exact ⟨⟨"p", .symbol 'a', "r"⟩, by decide⟩
      · exact ⟨⟨"p", .epsilon, "q"⟩, by decide⟩
      · exact ⟨⟨"p", .any, "p"⟩, by decide⟩
      · exact ⟨⟨"q", .epsilon, "p"⟩, by decide⟩
    · rintro ⟨⟨a, l, b⟩, step, rfl, rfl, rfl⟩
      rcases step with ⟨rfl, rfl, rfl⟩ | ⟨rfl, rfl, rfl⟩ | ⟨rfl, rfl, rfl⟩ | ⟨rfl, rfl, rfl⟩ <;>
        decide
  symbols c := by rfl

theorem loops_answered_as_relisted : Alike relist loops loopsRelisted ∧
    ∃ n m, Nfa.ofDocument loops = .ok n ∧ Nfa.ofDocument loopsRelisted = .ok m ∧
      n.edges ≠ m.edges ∧ nfaToDfa {} loops = nfaToDfa {} loopsRelisted ∧
      nfaToPattern {} loops = nfaToPattern {} loopsRelisted := by
  obtain ⟨n, m, read, read', different⟩ : ∃ n m, Nfa.ofDocument loops = .ok n ∧
      Nfa.ofDocument loopsRelisted = .ok m ∧ n.edges ≠ m.edges := ⟨_, _, rfl, rfl, by decide⟩
  obtain ⟨automaton, pattern⟩ := alike_tables_answered_alike {} alike_loops read read'
  exact ⟨alike_loops, n, m, read, read', different, automaton, pattern⟩

end Alike

end RegularLanguages.Settings
