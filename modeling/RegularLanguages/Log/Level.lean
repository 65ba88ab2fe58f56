import RegularLanguages.Text.Character

/-! # Levels of log messages -/
set_option autoImplicit false
namespace RegularLanguages

inductive LogLevel where
  | debug
  | info
  | warn
  | error
deriving DecidableEq

namespace LogLevel

def all : List LogLevel := [debug, info, warn, error]

def name : LogLevel → String
  | debug => "Debug"
  | info => "Info"
  | warn => "Warn"
  | error => "Error"

def tag : LogLevel → String
  | debug => "DBG"
  | info => "INF"
  | warn => "WAR"
  | error => "ERR"

def traceName : LogLevel → String
  | debug => "DEBUG"
  | info => "INFO"
  | warn => "WARN"
  | error => "ERROR"

def severity : LogLevel → Nat
  | debug => 0
  | info => 1
  | warn => 2
  | error => 3

def shownAt (level threshold : LogLevel) : Bool := threshold.severity ≤ level.severity

def ofName? (name : String) : Option LogLevel := all.find? (·.name == name)

/-- The level that a person means, in either case and also by a short form. -/
def ofText? (text : String) : Option LogLevel :=
  match Text.lower text with
  | "debug" | "dbg" => some debug
  | "info" | "inf" => some info
  | "warn" | "warning" | "war" => some warn
  | "error" | "err" => some error
  | _ => none

def invalidMessage (text : String) : String := "Invalid log level: " ++ text

end LogLevel

end RegularLanguages
