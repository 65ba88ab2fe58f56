import RegularLanguages.CommandLine.Mode

/-! # Arguments of the command line

One input and some options.  The value of an option comes after it or is
attached to it; only `-t` may be given several times.  After `--` everything is
input.  The first argument that is not understood, or asks for the version or
for help, decides. -/
set_option autoImplicit false
namespace RegularLanguages

structure Arguments where
  input : String
  mode : Mode
  config : Option String
  tests : List String
  dot : Bool
deriving DecidableEq

inductive Invocation where
  | convert (arguments : Arguments)
  | version
  | help
  | refused
deriving DecidableEq

namespace CommandLine

inductive Valued where
  | mode
  | config
  | test

inductive Switch where
  | dot
  | version
  | help

inductive Argument where
  | positional (value : String)
  | valued (option : Valued) (attached : Option String)
  | switch (option : Switch)
  /-- From here on everything is input. -/
  | separator
  | unknown

def longOption (name : String) (attached : Option String) : Argument :=
  match name, attached with
  | "mode", _ => .valued .mode attached
  | "config", _ => .valued .config attached
  | "test", _ => .valued .test attached
  | "dot", none => .switch .dot
  | "version", none => .switch .version
  | "help", none => .switch .help
  | _, _ => .unknown

/-- The value behind a short option, which may follow an equals sign. -/
def shortValue : List Char → Option String
  | [] => none
  | '=' :: value => some (String.ofList value)
  | value => some (String.ofList value)

def shortOption (letter : Char) (rest : List Char) : Argument :=
  match letter with
  | 'm' => .valued .mode (shortValue rest)
  | 'c' => .valued .config (shortValue rest)
  | 't' => .valued .test (shortValue rest)
  | 'V' => .switch .version
  | 'h' => .switch .help
  | _ => .unknown

def Argument.ofText (text : String) : Argument :=
  match text.toList with
  | ['-', '-'] => .separator
  | '-' :: '-' :: option =>
      match option.span (· != '=') with
      | (name, '=' :: value) => longOption (String.ofList name) (some (String.ofList value))
      | (name, _) => longOption (String.ofList name) none
  | '-' :: letter :: rest => shortOption letter rest
  | _ => .positional text

structure Given where
  input : Option String := none
  mode : Option Mode := none
  config : Option String := none
  tests : List String := []
  dot : Bool := false

namespace Given

def addInput? (g : Given) (value : String) : Option Given :=
  match g.input with
  | none => some { g with input := some value }
  | some _ => none

def addValue? (g : Given) (value : String) : Valued → Option Given
  | .mode =>
      match g.mode, Mode.ofText? value with
      | none, some mode => some { g with mode := some mode }
      | _, _ => none
  | .config =>
      match g.config with
      | none => some { g with config := some value }
      | some _ => none
  | .test => some { g with tests := g.tests ++ [value] }

def finish (g : Given) : Invocation :=
  match g.input with
  | none => .refused
  | some input => .convert ⟨input, g.mode.getD .regex, g.config, g.tests, g.dot⟩

def inputs (g : Given) : List String → Invocation
  | [] => g.finish
  | value :: rest =>
      match g.addInput? value with
      | some g => inputs g rest
      | none => .refused

/-- Goes through the arguments.  `waiting` is an option whose value comes
next. -/
def read (g : Given) (waiting : Option Valued) : List String → Invocation
  | [] => if waiting.isSome then .refused else g.finish
  | text :: rest =>
      match Argument.ofText text, waiting with
      | .positional value, some option =>
          match g.addValue? value option with
          | some g => read g none rest
          | none => .refused
      | _, some _ => .refused
      | .positional value, none =>
          match g.addInput? value with
          | some g => read g none rest
          | none => .refused
      | .valued option none, none => read g (some option) rest
      | .valued option (some value), none =>
          match g.addValue? value option with
          | some g => read g none rest
          | none => .refused
      | .switch .dot, none => if g.dot then .refused else read { g with dot := true } none rest
      | .switch .version, none => .version
      | .switch .help, none => .help
      | .separator, none => inputs g rest
      | .unknown, none => .refused

end Given

end CommandLine

def Invocation.ofArguments (arguments : List String) : Invocation :=
  CommandLine.Given.read {} none arguments

end RegularLanguages
