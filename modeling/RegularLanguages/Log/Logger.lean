import RegularLanguages.Log.Level

/-! # Log messages

A logger writes every message to its file, if it has one, and shows those from
its level up.  Shown messages may be colored, those in the file never are. -/
set_option autoImplicit false
namespace RegularLanguages

structure Logger where
  level : LogLevel
  name : String
  colored : Bool := false

structure Journal where
  shown : String
  file : Option String

namespace Journal

def empty (hasFile : Bool) : Journal := ⟨"", if hasFile then some "" else none⟩

end Journal

namespace Logger

def plainCode : String := "\x1b[0m"

/-- Text between the terminal code for a style and the code that ends it.  The
style begins anew wherever the text itself ends it. -/
def styled (code text : String) : String :=
  let start := "\x1b[" ++ code ++ "m"
  start ++ text.replace plainCode (plainCode ++ start) ++ plainCode

def color : LogLevel → String
  | .debug => "96"
  | .info => "92"
  | .warn => "33"
  | .error => "91"

def plainLead (l : Logger) (level : LogLevel) : String := "[" ++ level.tag ++ "] " ++ l.name ++ ":"

def lead (l : Logger) (level : LogLevel) : String :=
  if l.colored then
    "[" ++ styled (color level) level.tag ++ "] " ++ styled "2" (l.name ++ ":")
  else l.plainLead level

def write (l : Logger) (j : Journal) (level : LogLevel) (message : String) : Journal where
  shown :=
    if level.shownAt l.level then j.shown ++ l.lead level ++ " " ++ message ++ "\n" else j.shown
  file := j.file.map fun text => text ++ l.plainLead level ++ " " ++ message ++ "\n"

def objectText (name : String) (fields : List (String × String)) : String :=
  name ++ " \x7b" ++ String.join (fields.map fun (key, value) => "\n  " ++ key ++ ": " ++ value) ++
    "\n\x7d"

end Logger

end RegularLanguages
