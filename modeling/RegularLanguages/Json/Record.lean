import RegularLanguages.Distinct
import RegularLanguages.Json.Basic

/-! # Reading records

A record with named fields is written as an object, where other members are
passed over and a field given twice is refused, or as an array that holds the
fields by position.  The array may end early where the fields left out have a
default. -/
set_option autoImplicit false
namespace RegularLanguages.Json

def string? : Json → Option String
  | string value => some value
  | _ => none

def bool? : Json → Option Bool
  | bool value => some value
  | _ => none

def list? {α : Type} (read : Json → Option α) : Json → Option (List α)
  | array items => items.mapM read
  | _ => none

def nullable? {α : Type} (read : Json → Option α) : Json → Option (Option α)
  | null => some none
  | value => (read value).map some

structure Record where
  positional : Bool
  fields : List (String × Json)

def objectRecord? (names : List String) : Json → Option Record
  | object members =>
      let fields := members.filter fun m => names.contains m.1
      if Distinct.hasRepeats (fields.map (·.1)) then none else some ⟨false, fields⟩
  | _ => none

/-- The fields with the given names, from an object or an array. -/
def record? (names : List String) : Json → Option Record
  | array items => if items.length ≤ names.length then some ⟨true, names.zip items⟩ else none
  | value => objectRecord? names value

namespace Record

variable {α : Type}

def get? (r : Record) (name : String) : Option Json := r.fields.lookup name

def required? (r : Record) (name : String) (read : Json → Option α) : Option α :=
  (r.get? name).bind read

def orDefault? (r : Record) (name : String) (read : Json → Option α) (default : α) : Option α :=
  match r.get? name with
  | none => some default
  | some value => read value

/-- A field that may be null, and may be missing from an object. -/
def nullable? (r : Record) (name : String) (read : Json → Option α) : Option (Option α) :=
  match r.get? name with
  | none => if r.positional then none else some none
  | some value => Json.nullable? read value

end Record

end RegularLanguages.Json
