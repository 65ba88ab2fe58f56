import RegularLanguages.Dfa.Elimination
import RegularLanguages.Dfa.Minimize
import RegularLanguages.Nfa.Position
import RegularLanguages.Nfa.Thompson
import RegularLanguages.Regex.Render
import RegularLanguages.Service.Error
import RegularLanguages.Service.Message
import RegularLanguages.Settings
import RegularLanguages.Text.Character

/-! # The conversions

Each takes a pattern or a written automaton and gives a written automaton or a
pattern.  A pattern becomes a deterministic automaton by way of Thompson's
construction and sets of states.  Blank patterns are refused first, patterns
beyond the length limit next, and then those that cannot be read. -/
set_option autoImplicit false
namespace RegularLanguages.Settings

def determinize (s : Settings) (n : Nfa) : Except ServiceError Dfa :=
  match n.determinize s.determinization with
  | .error e => .error (.stateLimit e)
  | .ok d =>
      if s.minimize then
        match d.minimize with
        | .error e => .error (.conflict e)
        | .ok m => .ok m
      else .ok d

def exceededLength? (s : Settings) (pattern : String) : Option Nat :=
  s.maxPatternLength.filter (· < pattern.length)

def dfaOfPattern (s : Settings) (pattern : String) : Except ServiceError Dfa :=
  if Text.isBlank pattern then .error .emptyPattern
  else
    match s.exceededLength? pattern with
    | some limit => .error (.patternTooLong pattern.length limit)
    | none =>
        match Regex.parse pattern with
        | .error e => .error (.parse e)
        | .ok r => s.determinize (.thompson r)

def patternToDfa (s : Settings) (request : PatternRequest) : Except ServiceError DfaResponse :=
  match s.dfaOfPattern request.pattern with
  | .error e => .error e
  | .ok d => .ok ⟨some request.pattern, d.document, d.runSamples request.samples⟩

/-- The automaton that a table describes, exactly as given. -/
def tableToDfa (_ : Settings) (request : TableRequest) : Except ServiceError DfaResponse :=
  match Dfa.ofTable request.table with
  | .error e => .error (.table e)
  | .ok d => .ok ⟨none, d.document, d.runSamples request.samples⟩

def patternOfDfa (d : Dfa) : Except ServiceError String :=
  match d.toRegex? with
  | none => .error .emptyLanguage
  | some r => .ok r.render

def dfaToPattern (_ : Settings) (doc : Document) : Except ServiceError String :=
  match Dfa.ofDocument doc with
  | .error e => .error (.table e)
  | .ok d => patternOfDfa d

def minimizeDfa (_ : Settings) (doc : Document) : Except ServiceError Document :=
  match Dfa.ofDocument doc with
  | .error e => .error (.table e)
  | .ok d =>
      match d.minimize with
      | .error e => .error (.conflict e)
      | .ok m => .ok m.document

def dfaOfNfa (s : Settings) (doc : Document) : Except ServiceError Dfa :=
  match Nfa.ofDocument doc with
  | .error e => .error (.table e)
  | .ok n => s.determinize n

def nfaToDfa (s : Settings) (doc : Document) : Except ServiceError Document :=
  (s.dfaOfNfa doc).map Dfa.document

def nfaToPattern (s : Settings) (doc : Document) : Except ServiceError String :=
  match s.dfaOfNfa doc with
  | .error e => .error e
  | .ok d => patternOfDfa d

def patternToPositions (_ : Settings) (pattern : String) : Except ServiceError Document :=
  match Regex.parse pattern with
  | .error e => .error (.parse e)
  | .ok r => .ok (Nfa.ofPositions r).document

end RegularLanguages.Settings
