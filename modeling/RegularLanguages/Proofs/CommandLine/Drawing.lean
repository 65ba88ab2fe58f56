import RegularLanguages.CommandLine.Run
import RegularLanguages.Proofs.Dfa.Named
import RegularLanguages.Proofs.Nfa.Document
import RegularLanguages.Proofs.Service.Pattern

/-! # Automata that are handed out are read back and drawn

Every automaton that a conversion hands out is well-formed and `Named`, so its
document is read back with the same parts and the same words.  The command line
draws what it has read back, which therefore succeeds where the conversion has
succeeded, and the drawing is that of the automaton it would have printed. -/
set_option autoImplicit false
namespace RegularLanguages

variable {s : Settings} {n : Nfa} {d m : Dfa} {doc out : Document}

/-- The document is read as an automaton that is written the same way and
accepts the same words as the given one. -/
def ReadsBack (d : Dfa) (doc : Document) : Prop :=
  ∃ e, Dfa.ofDocument doc = .ok e ∧ e.document = doc ∧ ∀ word, e.accepts word = d.accepts word

theorem readsBack_document (wf : Dfa.WellFormed d) (named : Dfa.Named d) :
    ReadsBack d d.document := by
  obtain ⟨e, read, wf', same⟩ := Dfa.ofDocument_document wf named
  exact ⟨e, read, same, Dfa.accepts_of_document_eq wf' wf same⟩

namespace Settings

/-! ## Conversions -/

theorem named_determinize (wf : Nfa.WellFormed n) (ok : s.determinize n = .ok d) :
    Dfa.WellFormed d ∧ Dfa.Named d := by
  unfold determinize at ok
  split at ok
  · cases ok
  · next found determinized =>
    have whole := Nfa.wellFormed_determinize wf determinized
    have named := Nfa.named_determinize wf determinized
    split at ok
    · split at ok
      · cases ok
      · next minimized =>
        obtain rfl := Except.ok.inj ok
        exact ⟨(Dfa.merged_minimize whole minimized).wellFormed,
          Dfa.named_minimize whole named minimized⟩
    · obtain rfl := Except.ok.inj ok
      exact ⟨whole, named⟩

theorem readsBack_patternToDfa {request : PatternRequest} {response : DfaResponse}
    (ok : s.patternToDfa request = .ok response) :
    ∃ d, s.dfaOfPattern request.pattern = .ok d ∧ ReadsBack d response.dfa := by
  unfold patternToDfa at ok
  split at ok
  · cases ok
  · next d made =>
    obtain rfl := Except.ok.inj ok
    refine ⟨d, made, ?_⟩
    unfold dfaOfPattern at made
    split at made
    · cases made
    · split at made
      · cases made
      · split at made
        · cases made
        · obtain ⟨wf, named⟩ := named_determinize (Nfa.wellFormed_thompson _) made
          exact readsBack_document wf named

theorem readsBack_tableToDfa {request : TableRequest} {response : DfaResponse}
    (ok : s.tableToDfa request = .ok response) :
    ∃ d, Dfa.ofTable request.table = .ok d ∧ ReadsBack d response.dfa := by
  unfold tableToDfa at ok
  split at ok
  · cases ok
  · next d read =>
    obtain rfl := Except.ok.inj ok
    exact ⟨d, read, readsBack_document (Dfa.wellFormed_ofTable read) (Dfa.named_ofTable read)⟩

theorem readsBack_minimizeDfa (ok : s.minimizeDfa doc = .ok out) :
    ∃ d m, Dfa.ofDocument doc = .ok d ∧ d.minimize = .ok m ∧ ReadsBack m out ∧
      ReadsBack d out := by
  unfold minimizeDfa at ok
  split at ok
  · cases ok
  · next d read =>
    split at ok
    · cases ok
    · next m minimized =>
      obtain rfl := Except.ok.inj ok
      have wf := Dfa.wellFormed_ofDocument read
      have back := readsBack_document (Dfa.merged_minimize wf minimized).wellFormed
        (Dfa.named_minimize wf (Dfa.named_ofDocument read) minimized)
      refine ⟨d, m, read, minimized, back, ?_⟩
      obtain ⟨e, reread, same, words⟩ := back
      exact ⟨e, reread, same,
        fun word => (words word).trans (Dfa.accepts_minimize wf minimized word)⟩

theorem readsBack_nfaToDfa (ok : s.nfaToDfa doc = .ok out) :
    ∃ d, s.dfaOfNfa doc = .ok d ∧ ReadsBack d out := by
  unfold nfaToDfa at ok
  cases made : s.dfaOfNfa doc with
  | error e =>
      rw [made] at ok
      cases ok
  | ok d =>
      rw [made] at ok
      obtain rfl := Except.ok.inj ok
      refine ⟨d, rfl, ?_⟩
      unfold dfaOfNfa at made
      split at made
      · cases made
      · next n read =>
        obtain ⟨wf, named⟩ := named_determinize (Nfa.readFrom_ofDocument read).wellFormed made
        exact readsBack_document wf named

end Settings

/-! ## The command line -/

namespace CommandLine

variable {files : Files} {settings : Settings} {a : Arguments} {session : Session}
  {text json : String}

inductive Converted (files : Files) (settings : Settings) (a : Arguments) :
    String → Document → Prop where
  | pattern {response : DfaResponse} :
      a.mode = .regex → settings.patternToDfa ⟨a.input, samplesOf a.tests⟩ = .ok response →
        Converted files settings a (envelopeText DfaResponse.toJson (.ok response)) response.dfa
  | table {request : TableRequest} {response : DfaResponse} :
      a.mode = .table → (files a.input).toOption.bind TableRequest.ofText? = some request →
        settings.tableToDfa (if a.tests ≠ [] then { request with samples := samplesOf a.tests }
          else request) = .ok response →
        Converted files settings a (envelopeText DfaResponse.toJson (.ok response)) response.dfa
  | minimized {doc out : Document} :
      a.mode = .minimize → (files a.input).toOption.bind Document.ofDfaText? = some doc →
        settings.minimizeDfa doc = .ok out →
          Converted files settings a (envelopeText Document.toJson (.ok out)) out
  | determinized {doc out : Document} :
      a.mode = .nfa → (files a.input).toOption.bind Document.ofNfaText? = some doc →
        settings.nfaToDfa doc = .ok out →
          Converted files settings a (envelopeText Document.toJson (.ok out)) out

def Prints (report : Report) (text : String) : Prop :=
  report.exitCode = 0 ∧ report.stdout = text ∧ report.failure = none

theorem prints_runWith (started : Session.start files settings.log = .ok session)
    (output : ∀ s, (convert files settings a s).2 = .ok text) :
    Prints (runWith files settings a) text := by
  unfold runWith
  rw [started]
  simp only
  have result := output (session.log .info (Logger.objectText "Run"
    [("mode", a.mode.name), ("input", a.input), ("minimize", toString settings.minimize)]))
  generalize convert files settings a _ = ended at result ⊢
  obtain ⟨after, outcome⟩ := ended
  obtain rfl : outcome = .ok text := result
  exact ⟨rfl, rfl, rfl⟩

/-- Where a conversion has succeeded, its output depends on `--dot` alone. -/
theorem output_of_converted (converted : Converted files settings a json doc) (dot : Bool)
    (s : Session) : (convert files settings { a with dot } s).2 =
      if dot then drawing (.ok doc) else .ok json := by
  cases converted with
  | pattern mode ok =>
      simp only [convert, mode, convertPattern, ok, responseOutput]
      rfl
  | table mode loaded ok =>
      simp only [convert, mode, withFile, loaded, convertTable, ok, responseOutput]
      rfl
  | minimized mode loaded ok =>
      simp only [convert, mode, withFile, loaded, finish, ok, dfaOutput]
  | determinized mode loaded ok =>
      simp only [convert, mode, withFile, loaded, finish, ok, dfaOutput]

theorem readsBack_of_converted (converted : Converted files settings a json doc) :
    ∃ d, ReadsBack d doc := by
  cases converted with
  | pattern _ ok =>
      obtain ⟨d, -, back⟩ := Settings.readsBack_patternToDfa ok
      exact ⟨d, back⟩
  | table _ _ ok =>
      obtain ⟨d, -, back⟩ := Settings.readsBack_tableToDfa ok
      exact ⟨d, back⟩
  | minimized _ _ ok =>
      obtain ⟨d, -, -, -, -, back⟩ := Settings.readsBack_minimizeDfa ok
      exact ⟨d, back⟩
  | determinized _ _ ok =>
      obtain ⟨d, -, back⟩ := Settings.readsBack_nfaToDfa ok
      exact ⟨d, back⟩

/-- The automaton that is drawn is written as the one that is printed. -/
theorem prints_of_converted (converted : Converted files settings a json doc)
    (started : Session.start files settings.log = .ok session) :
    Prints (runWith files settings { a with dot := false }) json ∧
      ∃ e, Dfa.ofDocument doc = .ok e ∧ e.document = doc ∧
        Prints (runWith files settings { a with dot := true }) (e.graphviz ++ "\n") := by
  obtain ⟨d, e, read, same, -⟩ := readsBack_of_converted converted
  have drawn : drawing (.ok doc) = .ok (e.graphviz ++ "\n") := by
    simp only [drawing, read]
  refine ⟨prints_runWith started fun s => ?_, e, read, same, prints_runWith started fun s => ?_⟩
  · rw [output_of_converted converted]
    rfl
  · rw [output_of_converted converted, if_pos rfl, drawn]

/-- Whatever automaton a conversion hands out, its document is read as an
automaton that is written the same way and accepts the same words as the one
that was converted.  So a run that would print the automaton draws it, without
fail, if it is asked to. -/
theorem handed_out_reads_back (s : Settings) :
    (∀ request response, s.patternToDfa request = .ok response →
      ∃ d, s.dfaOfPattern request.pattern = .ok d ∧ ReadsBack d response.dfa) ∧
    (∀ request response, s.tableToDfa request = .ok response →
      ∃ d, Dfa.ofTable request.table = .ok d ∧ ReadsBack d response.dfa) ∧
    (∀ doc out, s.minimizeDfa doc = .ok out → ∃ d m, Dfa.ofDocument doc = .ok d ∧
      d.minimize = .ok m ∧ ReadsBack m out ∧ ReadsBack d out) ∧
    (∀ doc out, s.nfaToDfa doc = .ok out → ∃ d, s.dfaOfNfa doc = .ok d ∧ ReadsBack d out) ∧
    ∀ files a json doc session, Converted files s a json doc →
      Session.start files s.log = .ok session →
        Prints (runWith files s { a with dot := false }) json ∧
          ∃ e, Dfa.ofDocument doc = .ok e ∧ e.document = doc ∧
            Prints (runWith files s { a with dot := true }) (e.graphviz ++ "\n") := by
  refine ⟨?_, ?_, ?_, ?_, ?_⟩
  · intro request response ok
    exact Settings.readsBack_patternToDfa ok
  · intro request response ok
    exact Settings.readsBack_tableToDfa ok
  · intro doc out ok
    exact Settings.readsBack_minimizeDfa ok
  · intro doc out ok
    exact Settings.readsBack_nfaToDfa ok
  · intro files a json doc session converted started
    exact prints_of_converted converted started

def unnamed : Dfa.Table where
  states := ["p", "", "p"]
  start := some "p"
  accepting := ["", "p"]
  transitions := [⟨"p", "a", "p"⟩, ⟨"p", "a", "p"⟩]

def literal : Arguments := ⟨"a", .regex, none, [], false⟩

def noFiles : Files := fun _ => .error .missing

theorem handed_out_reads_back_unnamed :
    (∃ d response, Settings.tableToDfa {} ⟨unnamed, .none⟩ = .ok response ∧
      Dfa.ofTable unnamed = .ok d ∧ ReadsBack d response.dfa) ∧
    ∃ json doc, Converted noFiles {} literal json doc ∧
      Prints (runWith noFiles {} { literal with dot := false }) json ∧
        ∃ e, Dfa.ofDocument doc = .ok e ∧ e.document = doc ∧
          Prints (runWith noFiles {} { literal with dot := true }) (e.graphviz ++ "\n") := by
  obtain ⟨-, tables, -, -, runs⟩ := handed_out_reads_back {}
  constructor
  · obtain ⟨response, ok⟩ : ∃ response, Settings.tableToDfa {} ⟨unnamed, .none⟩ = .ok response :=
      ⟨_, rfl⟩
    obtain ⟨d, read, back⟩ := tables _ _ ok
    exact ⟨d, response, ok, read, back⟩
  · obtain ⟨response, ok⟩ : ∃ response, Settings.patternToDfa {} ⟨"a", .none⟩ = .ok response :=
      ⟨_, rfl⟩
    have converted : Converted noFiles {} literal _ _ := .pattern rfl ok
    exact ⟨_, _, converted, runs _ _ _ _ _ converted rfl⟩

end CommandLine

end RegularLanguages
