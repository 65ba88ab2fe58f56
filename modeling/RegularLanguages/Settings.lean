import RegularLanguages.Json.Basic
import RegularLanguages.Log.Level
import RegularLanguages.Nfa.Subset
import RegularLanguages.Toml.Parser

/-! # Settings of the conversions

Every setting has a default and may be left out of a document.  A document
with a key that is no setting is refused, and so is one with a value of the
wrong kind. -/
set_option autoImplicit false
namespace RegularLanguages

structure LogSettings where
  enabled : Bool := false
  logFile : Bool := false
  level : LogLevel := .warn
deriving DecidableEq

structure Settings where
  /-- The longest pattern that is converted, in characters. -/
  maxPatternLength : Option Nat := none
  maxDfaStates : Option Nat := none
  fallbackAlphabet : List Char := Subset.defaultFallback
  minimize : Bool := false
  log : LogSettings := {}
deriving DecidableEq

namespace LogSettings

def toJson (s : LogSettings) : Json :=
  .object [("enabled", .bool s.enabled), ("log_file", .bool s.logFile),
    ("log_level", .string s.level.name)]

end LogSettings

namespace Settings

def toJson (s : Settings) : Json :=
  .object [("max_pattern_length", .ofOption (fun n => .number n.repr) s.maxPatternLength),
    ("max_dfa_states", .ofOption (fun n => .number n.repr) s.maxDfaStates),
    ("fallback_alphabet", .strings (s.fallbackAlphabet.map Char.toString)),
    ("minimize", .bool s.minimize), ("logger", s.log.toJson)]

def determinization (s : Settings) : Subset.Settings := ⟨s.fallbackAlphabet, s.maxDfaStates⟩

end Settings

/-! ## Reading -/

namespace Toml

def bool? : Toml → Option Bool
  | bool value => some value
  | _ => none

/-- A count that fits into 64 bits. -/
def count? : Toml → Option Nat
  | integer numeral =>
      match numeral.value? with
      | some (.ofNat n) => if n < Nat.pow 2 64 then some n else none
      | _ => none
  | _ => none

def char? : Toml → Option Char
  | string value => match value.toList with | [c] => some c | _ => none
  | _ => none

def chars? : Toml → Option (List Char)
  | array items => items.mapM char?
  | _ => none

/-- A level by its name, or by a table that holds the name alone with nothing
in it. -/
def level? : Toml → Option LogLevel
  | string name => LogLevel.ofName? name
  | table _ [(name, array [])] => LogLevel.ofName? name
  | table _ [(name, table _ [])] => LogLevel.ofName? name
  | _ => none

def field? {α : Type} (entries : Entries) (key : String) (read : Toml → Option α) (default : α) :
    Option α :=
  match entries.lookup key with
  | none => some default
  | some value => read value

end Toml

namespace LogSettings

def keys : List String := ["enabled", "log_file", "log_level"]

def ofEntries? (entries : Toml.Entries) : Option LogSettings :=
  if entries.all fun e => keys.contains e.1 then do
    let enabled ← Toml.field? entries "enabled" Toml.bool? false
    let logFile ← Toml.field? entries "log_file" Toml.bool? false
    let level ← Toml.field? entries "log_level" Toml.level? .warn
    some ⟨enabled, logFile, level⟩
  else none

/-- The settings by their keys, or as an array in their order. -/
def ofToml? : Toml → Option LogSettings
  | .table _ entries => ofEntries? entries
  | .array items => ofEntries? (keys.zip items)
  | _ => none

end LogSettings

namespace Settings

def keys : List String :=
  ["max_pattern_length", "max_dfa_states", "fallback_alphabet", "minimize", "logger"]

def ofEntries? (entries : Toml.Entries) : Option Settings :=
  if entries.all fun e => keys.contains e.1 then do
    let maxPatternLength ←
      Toml.field? entries "max_pattern_length" (fun v => v.count?.map some) none
    let maxDfaStates ← Toml.field? entries "max_dfa_states" (fun v => v.count?.map some) none
    let fallback ← Toml.field? entries "fallback_alphabet" Toml.chars? Subset.defaultFallback
    let minimize ← Toml.field? entries "minimize" Toml.bool? false
    let log ← Toml.field? entries "logger" LogSettings.ofToml? {}
    some ⟨maxPatternLength, maxDfaStates, fallback, minimize, log⟩
  else none

def ofText? (text : String) : Option Settings := (Toml.parse? text).bind ofEntries?

end Settings

end RegularLanguages
