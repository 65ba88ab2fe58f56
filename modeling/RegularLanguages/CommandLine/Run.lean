import RegularLanguages.CommandLine.Arguments
import RegularLanguages.CommandLine.Files
import RegularLanguages.Dfa.Describe
import RegularLanguages.Json.Printer
import RegularLanguages.Log.Logger
import RegularLanguages.Service.Conversion
import RegularLanguages.Service.Wire

/-! # A run of the command line

A run reads its settings and its input, converts, and prints an envelope or a
drawing.  A failed conversion is a result like any other and is printed in its
envelope, but it cannot be drawn. -/
set_option autoImplicit false
namespace RegularLanguages.CommandLine

structure Report where
  exitCode : Nat
  stdout : String
  journal : Journal
  failure : Option String

structure Session where
  logger : Option Logger
  journal : Journal

namespace Session

def logFolder : String := "./logs"

/-- The session with the given settings.  A log file needs its folder. -/
def start (files : Files) (s : LogSettings) : Except FileError Session :=
  if s.enabled then
    if s.logFile ∧ files.hasFile logFolder then .error .occupied
    else .ok ⟨some { level := s.level, name := "Converter" }, .empty s.logFile⟩
  else .ok ⟨none, .empty false⟩

def log (s : Session) (level : LogLevel) (message : String) : Session :=
  match s.logger with
  | some l => { s with journal := l.write s.journal level message }
  | none => s

def logFailure {α : Type} (s : Session) : Except ServiceError α → Session
  | .ok _ => s
  | .error e => s.log .error ("Conversion failed: " ++ e.message)

end Session

def samplesOf : List String → Samples
  | [] => .none
  | [test] => .one test
  | tests => .list tests

def envelopeText {α : Type} (write : α → Json) (result : Except ServiceError α) : String :=
  ((Envelope.ofResult result).toJson write).pretty ++ "\n"

def drawing (result : Except ServiceError Document) : Except String String :=
  match result with
  | .error e => .error e.message
  | .ok doc =>
      match Dfa.ofDocument doc with
      | .error e => .error e.message
      | .ok d => .ok (d.graphviz ++ "\n")

def dfaOutput (dot : Bool) (result : Except ServiceError Document) : Except String String :=
  if dot then drawing result else .ok (envelopeText Document.toJson result)

def responseOutput (dot : Bool) (result : Except ServiceError DfaResponse) :
    Except String String :=
  if dot then drawing (result.map (·.dfa)) else .ok (envelopeText DfaResponse.toJson result)

def patternOutput (result : Except ServiceError String) : Except String String :=
  .ok (envelopeText Json.string result)

def loadSettings (files : Files) : Option String → Except String Settings
  | none => .ok {}
  | some path =>
      match files path with
      | .error e => .error e.message
      | .ok text =>
          match Settings.ofText? text with
          | none => .error "TOML parse error"
          | some settings => .ok settings

def convertPattern (settings : Settings) (a : Arguments) (s : Session) :
    Session × Except String String :=
  let result := settings.patternToDfa ⟨a.input, samplesOf a.tests⟩
  let s := s.logFailure result
  let s := match result with
    | .ok r => s.log .info ("DFA has " ++ r.dfa.states.length.repr ++ " states")
    | .error _ => s
  (s, responseOutput a.dot result)

/-- Test strings from the arguments take the place of those in the file. -/
def convertTable (settings : Settings) (a : Arguments) (request : TableRequest) (s : Session) :
    Session × Except String String :=
  let replaced := a.tests ≠ []
  let s :=
    if replaced ∧ request.samples.strings?.isSome then
      s.log .warn "Test strings from the command line replace those in the table file"
    else s
  let request := if replaced then { request with samples := samplesOf a.tests } else request
  let result := settings.tableToDfa request
  (s.logFailure result, responseOutput a.dot result)

def withFile {α : Type} (kind path : String) (loaded : Option α) (s : Session)
    (convert : α → Session × Except String String) : Session × Except String String :=
  match loaded with
  | none => (s, .error ("could not load " ++ kind ++ " from " ++ path))
  | some value => convert value

def finish {α : Type} (s : Session) (result : Except ServiceError α)
    (output : Except ServiceError α → Except String String) : Session × Except String String :=
  (s.logFailure result, output result)

def convert (files : Files) (settings : Settings) (a : Arguments) (s : Session) :
    Session × Except String String :=
  let text := (files a.input).toOption
  match a.mode with
  | .regex => convertPattern settings a s
  | .table =>
      withFile "table" a.input (text.bind TableRequest.ofText?) s fun request =>
        convertTable settings a request s
  | .toRegex =>
      withFile "DFA" a.input (text.bind Document.ofDfaText?) s fun doc =>
        finish s (settings.dfaToPattern doc) patternOutput
  | .minimize =>
      withFile "DFA" a.input (text.bind Document.ofDfaText?) s fun doc =>
        finish s (settings.minimizeDfa doc) (dfaOutput a.dot)
  | .lambdaFree =>
      finish s (settings.patternToPositions a.input) fun result =>
        .ok (envelopeText Document.toJson result)
  | .nfa =>
      withFile "NFA" a.input (text.bind Document.ofNfaText?) s fun doc =>
        finish s (settings.nfaToDfa doc) (dfaOutput a.dot)
  | .nfaToRegex =>
      withFile "NFA" a.input (text.bind Document.ofNfaText?) s fun doc =>
        finish s (settings.nfaToPattern doc) patternOutput

def firstLine (text : String) : String := String.ofList (text.toList.takeWhile (· != '\n'))

def runWith (files : Files) (settings : Settings) (a : Arguments) : Report :=
  match Session.start files settings.log with
  | .error e => ⟨1, "", .empty false, some e.message⟩
  | .ok s =>
      let s := s.log .info (Logger.objectText "Run"
        [("mode", a.mode.name), ("input", a.input), ("minimize", toString settings.minimize)])
      match convert files settings a s with
      | (s, .ok output) => ⟨0, output, (s.log .debug "Done").journal, none⟩
      | (s, .error reason) => ⟨1, "", s.journal, some (firstLine reason)⟩

def versionText : String := "Regex DFA Tool 0.1\n"

def helpText : String :=
  "Convert between regular expressions, NFAs and DFAs\n\n" ++
  "Usage: [OPTIONS] <INPUT>\n\n" ++
  "  <INPUT>          a pattern in regex and lambda-free mode, a JSON file otherwise\n" ++
  "  -m, --mode       " ++ ", ".intercalate (Mode.all.map Mode.name) ++ "\n" ++
  "  -c, --config     a TOML file with settings\n" ++
  "  -t, --test       a string to run through the resulting DFA\n" ++
  "      --dot        print the DFA in Graphviz format instead of JSON\n" ++
  "  -h, --help       print this text\n" ++
  "  -V, --version    print the version\n"

def run (arguments : List String) (files : Files) : Report :=
  match Invocation.ofArguments arguments with
  | .refused => ⟨2, "", .empty false, none⟩
  | .version => ⟨0, versionText, .empty false, none⟩
  | .help => ⟨0, helpText, .empty false, none⟩
  | .convert a =>
      match loadSettings files a.config with
      | .error reason => ⟨1, "", .empty false, some (firstLine reason)⟩
      | .ok settings => runWith files settings a

/-- The paths that a run with these arguments may ask for. -/
def paths (arguments : List String) : List String :=
  match Invocation.ofArguments arguments with
  | .convert a =>
      Session.logFolder :: a.config.toList ++ (if a.mode.readsFile then [a.input] else [])
  | _ => []

end RegularLanguages.CommandLine
