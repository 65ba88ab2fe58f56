import RegularLanguages.Json.Limits
import RegularLanguages.Json.Parser
import RegularLanguages.Json.Record
import RegularLanguages.Service.Message

/-! # Requests and responses as JSON

In a request the strings to test stand beside its other fields.  A request that
is read from text is held in memory as a whole, so also the members that it
passes over have to be within the limits. -/
set_option autoImplicit false
namespace RegularLanguages

def Json.strings? : Json → Option (List String) := Json.list? Json.string?

/-! ## Transitions -/

namespace Row

def toJson (r : Row) : Json :=
  .object [("from", .string r.source), ("symbol", .string r.symbol), ("to", .string r.target)]

def field? (r : Json.Record) (name : String) (default : Option String) : Option String :=
  match r.get? name with
  | none => default
  | some value => value.string?

def ofJson? (source symbol target : Option String) (value : Json) : Option Row := do
  let r ← Json.record? ["from", "symbol", "to"] value
  some ⟨← field? r "from" source, ← field? r "symbol" symbol, ← field? r "to" target⟩

end Row

def Json.rows (rows : List Row) : Json := .array (rows.map Row.toJson)

/-! ## Automata -/

namespace Dfa.Table

def toMembers (t : Table) : List (String × Json) :=
  [("states", .strings t.states), ("start", .ofOption .string t.start),
    ("accepting", .strings t.accepting), ("transitions", .rows t.transitions)]

def toJson (t : Table) : Json := .object t.toMembers

def keys : List String := ["states", "start", "accepting", "transitions"]

def ofRecord? (r : Json.Record) : Option Table := do
  let states ← r.orDefault? "states" Json.strings? []
  let start ← r.orDefault? "start" (Json.nullable? Json.string?) none
  let accepting ← r.orDefault? "accepting" Json.strings? []
  let row := Row.ofJson? (some "") (some "") (some "")
  let transitions ← r.orDefault? "transitions" (Json.list? row) []
  some ⟨states, start, accepting, transitions⟩

def ofJson? (value : Json) : Option Table := (Json.record? keys value).bind ofRecord?

end Dfa.Table

namespace Document

def toJson (d : Document) : Json :=
  .object [("alphabet", .strings d.alphabet), ("states", .strings d.states),
    ("start", .string d.start), ("accepting", .strings d.accepting),
    ("transitions", .rows d.transitions)]

def keys : List String := ["alphabet", "states", "start", "accepting", "transitions"]

/-- The document of a deterministic automaton, in which nothing may be left
out. -/
def ofDfaJson? (value : Json) : Option Document := do
  let r ← Json.record? keys value
  let alphabet ← r.required? "alphabet" Json.strings?
  let states ← r.required? "states" Json.strings?
  let start ← r.required? "start" Json.string?
  let accepting ← r.required? "accepting" Json.strings?
  let transitions ← r.required? "transitions" (Json.list? (Row.ofJson? none none none))
  some ⟨alphabet, states, start, accepting, transitions⟩

/-- The document of an automaton with free choice, of which only the states and
the start are needed. -/
def ofNfaJson? (value : Json) : Option Document := do
  let r ← Json.record? keys value
  let alphabet ← r.orDefault? "alphabet" Json.strings? []
  let states ← r.required? "states" Json.strings?
  let start ← r.required? "start" Json.string?
  let accepting ← r.orDefault? "accepting" Json.strings? []
  let row := Row.ofJson? none (some "") none
  let transitions ← r.orDefault? "transitions" (Json.list? row) []
  some ⟨alphabet, states, start, accepting, transitions⟩

def ofDfaText? (text : String) : Option Document := (Json.parse? text).bind ofDfaJson?

def ofNfaText? (text : String) : Option Document := (Json.parse? text).bind ofNfaJson?

end Document

/-! ## Requests -/

namespace Samples

def toMembers : Samples → List (String × Json)
  | none => []
  | one string => [("test", .string string)]
  | list strings => [("tests", .strings strings)]

def toJson (s : Samples) : Json := .object s.toMembers

def keys : List String := ["test", "tests"]

def ofRecord? (r : Json.Record) : Option Samples := do
  let test ← r.orDefault? "test" (Json.nullable? Json.string?) Option.none
  let tests ← r.orDefault? "tests" (Json.nullable? Json.strings?) Option.none
  some (ofFields test tests)

def ofJson? (value : Json) : Option Samples := (Json.record? keys value).bind ofRecord?

end Samples

namespace PatternRequest

def toJson (r : PatternRequest) : Json :=
  .object (("regex", .string r.pattern) :: r.samples.toMembers)

def ofJson? (value : Json) : Option PatternRequest := do
  let r ← Json.objectRecord? ("regex" :: Samples.keys) value
  some ⟨← r.required? "regex" Json.string?, ← Samples.ofRecord? r⟩

def ofText? (text : String) : Option PatternRequest :=
  ((Json.parse? text).filter Json.isHeld).bind ofJson?

end PatternRequest

namespace TableRequest

def toJson (r : TableRequest) : Json := .object (r.table.toMembers ++ r.samples.toMembers)

def ofJson? (value : Json) : Option TableRequest := do
  let r ← Json.objectRecord? (Dfa.Table.keys ++ Samples.keys) value
  some ⟨← Dfa.Table.ofRecord? r, ← Samples.ofRecord? r⟩

def ofText? (text : String) : Option TableRequest :=
  ((Json.parse? text).filter Json.isHeld).bind ofJson?

end TableRequest

/-! ## Responses -/

namespace SampleResult

def toJson (r : SampleResult) : Json :=
  .object [("string", .string r.string), ("accepted", .bool r.accepted)]

def ofJson? (value : Json) : Option SampleResult := do
  let r ← Json.record? ["string", "accepted"] value
  some ⟨← r.required? "string" Json.string?, ← r.required? "accepted" Json.bool?⟩

end SampleResult

namespace DfaResponse

def toJson (r : DfaResponse) : Json :=
  .object (Json.member? "regex" .string r.pattern ++ [("dfa", r.dfa.toJson)] ++
    Json.member? "test_results" (fun results => .array (results.map SampleResult.toJson)) r.results)

def ofJson? (value : Json) : Option DfaResponse := do
  let r ← Json.record? ["regex", "dfa", "test_results"] value
  let pattern ← r.orDefault? "regex" (Json.nullable? Json.string?) none
  let dfa ← r.required? "dfa" Document.ofDfaJson?
  let results ←
    r.orDefault? "test_results" (Json.nullable? (Json.list? SampleResult.ofJson?)) none
  some ⟨pattern, dfa, results⟩

end DfaResponse

namespace Envelope

variable {α : Type}

def toJson (write : α → Json) (e : Envelope α) : Json :=
  .object [("success", .bool e.success), ("result", .ofOption write e.result),
    ("error", .ofOption .string e.error)]

def ofJson? (read : Json → Option α) (value : Json) : Option (Envelope α) := do
  let r ← Json.record? ["success", "result", "error"] value
  let success ← r.required? "success" Json.bool?
  some ⟨success, ← r.nullable? "result" read, ← r.nullable? "error" Json.string?⟩

end Envelope

end RegularLanguages
