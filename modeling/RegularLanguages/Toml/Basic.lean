import RegularLanguages.Toml.DateTime
import RegularLanguages.Toml.Number

/-! # TOML documents

A document is a table of values.  `define`, `openTable` and `openElement` add
to a table what the lines of a document say, and refuse what would define
something twice: a table knows what kind of line it comes from, and an inline
table is complete as it stands. -/
set_option autoImplicit false
namespace RegularLanguages

inductive Toml.Origin where
  | header
  | implied
  | dotted
  | inlined
deriving DecidableEq

inductive Toml where
  | string (value : String)
  | integer (numeral : Toml.Numeral)
  /-- A float as it is written: no setting takes one. -/
  | float (literal : String)
  | bool (value : Bool)
  | dateTime (value : Toml.DateTime)
  | array (items : List Toml)
  | table (origin : Toml.Origin) (entries : List (String × Toml))
  /-- Tables under a repeated header, of which the last is open. -/
  | tables (earlier : List (List (String × Toml))) (last : List (String × Toml))
deriving Inhabited

namespace Toml

abbrev Entries := List (String × Toml)

def alter (key : String) (change : Option Toml → Option Toml) : Entries → Option Entries
  | [] => (change none).map fun value => [(key, value)]
  | (name, value) :: rest =>
      if name = key then (change (some value)).map fun value => (name, value) :: rest
      else (alter key change rest).map ((name, value) :: ·)

/-- Changes the table at the end of a path of headers. -/
def insideHeaders (change : Entries → Option Entries) : List String → Entries → Option Entries
  | [], entries => change entries
  | key :: path, entries =>
      alter key (fun
        | none => (insideHeaders change path []).map (table .implied)
        | some (table .inlined _) => none
        | some (table origin inner) => (insideHeaders change path inner).map (table origin)
        | some (tables earlier last) => (insideHeaders change path last).map (tables earlier)
        | some _ => none) entries

/-- Changes the table at the end of the dotted part of a key. -/
def insideDots (change : Entries → Option Entries) : List String → Entries → Option Entries
  | [], entries => change entries
  | key :: path, entries =>
      alter key (fun
        | none => (insideDots change path []).map (table .dotted)
        | some (table .dotted inner) => (insideDots change path inner).map (table .dotted)
        | some (table .implied inner) => (insideDots change path inner).map (table .implied)
        | some _ => none) entries

def lastKey? (path : List String) : Option (List String × String) :=
  path.getLast?.map fun key => (path.dropLast, key)

def define (path : List String) (value : Toml) (entries : Entries) : Option Entries :=
  match lastKey? path with
  | none => none
  | some (dots, key) =>
      insideDots (alter key fun | none => some value | some _ => none) dots entries

def openTable (path : List String) (entries : Entries) : Option Entries :=
  match lastKey? path with
  | none => none
  | some (above, key) =>
      insideHeaders (alter key fun
        | none => some (table .header [])
        | some (table .implied inner) => some (table .header inner)
        | some _ => none) above entries

def openElement (path : List String) (entries : Entries) : Option Entries :=
  match lastKey? path with
  | none => none
  | some (above, key) =>
      insideHeaders (alter key fun
        | none => some (tables [] [])
        | some (tables earlier last) => some (tables (earlier ++ [last]) [])
        | some _ => none) above entries

inductive Line where
  | blank
  | assignment (path : List String) (value : Toml)
  | header (path : List String)
  | elementHeader (path : List String)

/-- The table that the lines of a document describe, read on from the table of
the given header. -/
def ofLines? (current : List String) (entries : Entries) : List Line → Option Entries
  | [] => some entries
  | .blank :: rest => ofLines? current entries rest
  | .assignment path value :: rest =>
      (insideHeaders (define path value) current entries).bind (ofLines? current · rest)
  | .header path :: rest => (openTable path entries).bind (ofLines? path · rest)
  | .elementHeader path :: rest => (openElement path entries).bind (ofLines? path · rest)

end Toml

end RegularLanguages
