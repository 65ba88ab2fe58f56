import RegularLanguages.Toml.Basic
import RegularLanguages.Toml.Number
import RegularLanguages.Toml.Quoted

/-! # Reading TOML

A document is read line by line.  The values of a document have any kind, but
arrays and inline tables nest at most 80 deep. -/
set_option autoImplicit false
namespace RegularLanguages.Toml

/-! ## Keys -/

def isBare (c : Char) : Bool := c.isAlphanum || c == '_' || c == '-'

def readKeyPart : Reader String
  | '"' :: rest => readBasic (rest.length + 1) [] rest
  | '\'' :: rest => readLiteral rest
  | text =>
      match text.span isBare with
      | ([], _) => none
      | (bare, rest) => some (String.ofList bare, rest)

def readKey : Nat → Reader (List String)
  | 0, _ => none
  | parts + 1, text =>
      match readKeyPart (skipBlanks text) with
      | none => none
      | some (part, rest) =>
          match skipBlanks rest with
          | '.' :: rest => (readKey parts rest).map fun (path, rest) => (part :: path, rest)
          | rest => some ([part], rest)

/-! ## Values -/

def isDelimiter (c : Char) : Bool :=
  c == '#' || c == ',' || c == '=' || c == '[' || c == ']' || c == '{' || c == '}' || c == '\n' ||
    c == '\r'

/-- Whether a value without quotes goes on with a text that comes after
blanks. -/
def goesOn : List Char → Bool
  | [] => false
  | c :: _ => !isDelimiter c && c != '"' && c != '\''

/-- The characters of a value without quotes or brackets.  Blanks belong to it
if it goes on after them. -/
def scanScalar : Nat → List Char → List Char × List Char
  | 0, text => ([], text)
  | size + 1, text =>
      let (run, rest) := text.span fun c => !isDelimiter c && !isBlank c
      let (blanks, more) := rest.span isBlank
      if goesOn more then
        let (tail, rest) := scanScalar size more
        (run ++ blanks ++ tail, rest)
      else (run, rest)

def scalar? (run : List Char) : Option Toml :=
  match run with
  | ['t', 'r', 'u', 'e'] => some (bool true)
  | ['f', 'a', 'l', 's', 'e'] => some (bool false)
  | _ =>
      match integer? run with
      | some n => some (integer n)
      | none =>
          if isFloat run then some (float (String.ofList run))
          else (DateTime.ofText? run).map dateTime

def maxNesting : Nat := 80

/-- A key of an inline table and the sign behind it.  Comments and line breaks
may stand around the sign. -/
def readAssignment : Reader (List String) := fun text =>
  match readKey text.length text with
  | none => none
  | some (path, rest) =>
      match skipLines rest.length rest with
      | '=' :: rest => some (path, skipLines rest.length rest)
      | _ => none

mutual
/-- A value in which arrays and inline tables nest at most `depth` deep.  The
size bounds the steps. -/
def readValue : (size depth : Nat) → Reader Toml
  | 0, _, _ => none
  | size + 1, depth, text =>
      match text with
      | '[' :: rest =>
          if depth = 0 then none
          else (readItems size (depth - 1) rest).map fun (items, rest) => (array items, rest)
      | '{' :: rest =>
          if depth = 0 then none
          else
            (readEntries size (depth - 1) [] rest).map fun (entries, rest) =>
              (table .inlined entries, rest)
      | '"' :: _ => (readString text).map fun (value, rest) => (string value, rest)
      | '\'' :: _ => (readString text).map fun (value, rest) => (string value, rest)
      | _ =>
          let (run, rest) := scanScalar text.length text
          (scalar? run).map fun value => (value, rest)

def readItems : (size depth : Nat) → Reader (List Toml)
  | 0, _, _ => none
  | size + 1, depth, text =>
      match skipLines text.length text with
      | ']' :: rest => some ([], rest)
      | text =>
          match readValue size depth text with
          | none => none
          | some (item, rest) =>
              match skipLines rest.length rest with
              | ',' :: rest =>
                  (readItems size depth rest).map fun (items, rest) => (item :: items, rest)
              | ']' :: rest => some ([item], rest)
              | _ => none

def readEntries : (size depth : Nat) → Entries → Reader Entries
  | 0, _, _, _ => none
  | size + 1, depth, entries, text =>
      match skipLines text.length text with
      | '}' :: rest => some (entries, rest)
      | text =>
          match readAssignment text with
          | none => none
          | some (path, text) =>
              match readValue size depth text with
              | none => none
              | some (value, rest) =>
                  match define path value entries with
                  | none => none
                  | some entries =>
                      match skipLines rest.length rest with
                      | ',' :: rest => readEntries size depth entries rest
                      | '}' :: rest => some (entries, rest)
                      | _ => none
end

/-! ## Lines -/

/-- One line of a document, without what ends it. -/
def readLine (text : List Char) : Option (Line × List Char) :=
  match skipBlanks text with
  | '[' :: '[' :: rest =>
      match readKey rest.length rest with
      | some (path, ']' :: ']' :: rest) => some (.elementHeader path, rest)
      | _ => none
  | '[' :: rest =>
      match readKey rest.length rest with
      | some (path, ']' :: rest) => some (.header path, rest)
      | _ => none
  | [] => some (.blank, [])
  | c :: rest =>
      if c = '#' ∨ (lineBreak? (c :: rest)).isSome then some (.blank, c :: rest)
      else
        match readKey (rest.length + 1) (c :: rest) with
        | some (path, '=' :: rest) =>
            let text := skipBlanks rest
            (readValue (text.length + 1) maxNesting text).map fun (value, rest) =>
              (.assignment path value, rest)
        | _ => none

def readLines : Nat → List Char → Option (List Line)
  | 0, _ => none
  | size + 1, text =>
      match readLine text with
      | none => none
      | some (line, rest) =>
          let rest := skipComment (skipBlanks rest)
          if rest.isEmpty then some [line]
          else
            match lineBreak? rest with
            | some rest => (readLines size rest).map (line :: ·)
            | none => none

/-- The table of a document.  A mark of the byte order in front is passed
over. -/
def parse? (text : String) : Option Entries :=
  let chars := match text.toList with
    | '\ufeff' :: rest => rest
    | chars => chars
  (readLines (chars.length + 1) chars).bind (ofLines? [] [])

end RegularLanguages.Toml
