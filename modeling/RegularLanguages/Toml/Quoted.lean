import RegularLanguages.Text.Character
import RegularLanguages.Toml.Reader

/-! # Strings in quotes

Double quotes hold a text with escapes, single quotes a text as it is.  Three
quotes hold a text of several lines, whose line breaks stay as they are. -/
set_option autoImplicit false
namespace RegularLanguages.Toml

def codePoint? (digits : List Char) : Option Char :=
  match digits.mapM Text.hexDigit? with
  | none => none
  | some values =>
      let n := Text.ofDigits 16 values
      if h : n.isValidChar then some (Char.ofNatAux n h) else none

/-- An escape after its backslash: how many hexadecimal digits it has, or the
character it stands for. -/
def escapeOf? : Char → Option (Nat ⊕ Char)
  | 'b' => some (.inr '\x08')
  | 't' => some (.inr '\t')
  | 'n' => some (.inr '\n')
  | 'f' => some (.inr '\x0c')
  | 'r' => some (.inr '\r')
  | 'e' => some (.inr '\x1b')
  | '"' => some (.inr '"')
  | '\\' => some (.inr '\\')
  | 'x' => some (.inl 2)
  | 'u' => some (.inl 4)
  | 'U' => some (.inl 8)
  | _ => none

def readEscape : Reader Char
  | [] => none
  | c :: rest =>
      match escapeOf? c with
      | none => none
      | some (.inr c) => some (c, rest)
      | some (.inl count) =>
          if rest.length < count then none
          else (codePoint? (rest.take count)).map fun c => (c, rest.drop count)

/-- The rest of a one-line string with escapes; `read` is newest first. -/
def readBasic : Nat → List Char → Reader String
  | 0, _, _ => none
  | _ + 1, _, [] => none
  | _ + 1, read, '"' :: rest => some (String.ofList read.reverse, rest)
  | size + 1, read, '\\' :: rest =>
      match readEscape rest with
      | some (c, rest) => readBasic size (c :: read) rest
      | none => none
  | size + 1, read, c :: rest => if isControl c then none else readBasic size (c :: read) rest

def readLiteral : Reader String := fun text =>
  match text.span fun c => c != '\'' && !isControl c with
  | (inside, '\'' :: rest) => some (String.ofList inside, rest)
  | _ => none

/-- What comes after a backslash that ends a line, if it does: blanks and line
breaks up to the next text. -/
def afterLineEnd? (text : List Char) : Option (List Char) :=
  (lineBreak? (skipBlanks text)).map fun rest => skipBreaks (rest.length + 1) rest

/-- How many of a run of quotes at the end of a string of several lines belong
to its text: all but the last three, of which there are two at most. -/
def closingQuotes (quote : Char) (text : List Char) : Option (Nat × List Char) :=
  let run := (text.takeWhile (· == quote)).length
  if run < 3 then none
  else some (min (run - 3) 2, text.drop (min run 5))

def readLong (quote : Char) (escapes : Bool) : Nat → List Char → Reader String
  | 0, _, _ => none
  | _ + 1, _, [] => none
  | size + 1, read, c :: rest =>
      if c = quote then
        match closingQuotes quote (c :: rest) with
        | some (inside, rest) =>
            some (String.ofList (read.reverse ++ List.replicate inside quote), rest)
        | none => readLong quote escapes size (c :: read) rest
      else if c = '\\' ∧ escapes then
        match afterLineEnd? rest with
        | some rest => readLong quote escapes size read rest
        | none =>
            match readEscape rest with
            | some (c, rest) => readLong quote escapes size (c :: read) rest
            | none => none
      else if c = '\r' then
        match rest with
        | '\n' :: rest => readLong quote escapes size ('\n' :: '\r' :: read) rest
        | _ => none
      else if isControl c ∧ c ≠ '\n' then none
      else readLong quote escapes size (c :: read) rest

/-- A string of several lines after its opening quotes.  A line break there
does not count. -/
def readLongText (quote : Char) (escapes : Bool) : Reader String := fun text =>
  readLong quote escapes (text.length + 1) [] ((lineBreak? text).getD text)

def readString : Reader String
  | '"' :: '"' :: '"' :: rest => readLongText '"' true rest
  | '"' :: rest => readBasic (rest.length + 1) [] rest
  | '\'' :: '\'' :: '\'' :: rest => readLongText '\'' false rest
  | '\'' :: rest => readLiteral rest
  | _ => none

end RegularLanguages.Toml
