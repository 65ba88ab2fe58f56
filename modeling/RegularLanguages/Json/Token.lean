import RegularLanguages.Json.Basic
import RegularLanguages.Text.Character

/-! # The tokens of a JSON text

Brackets, commas, colons and scalar values.  Between them stand spaces, tabs
and line breaks only.  A string may not hold control characters.  Escapes above
the basic plane come in pairs, and a string with half a pair is no text. -/
set_option autoImplicit false
namespace RegularLanguages.Json

inductive Token where
  | openArray
  | closeArray
  | openObject
  | closeObject
  | comma
  | colon
  /-- A string, with its text if it is one. -/
  | string (value : Option String)
  | scalar (value : Json)

namespace Token

def hex4? (a b c d : Char) : Option Nat :=
  ([a, b, c, d].mapM Text.hexDigit?).map (Text.ofDigits 16)

def escaped? : Char → Option Char
  | '"' => some '"'
  | '\\' => some '\\'
  | '/' => some '/'
  | 'b' => some '\x08'
  | 'f' => some '\x0c'
  | 'n' => some '\n'
  | 'r' => some '\r'
  | 't' => some '\t'
  | _ => none

def isHighSurrogate (n : Nat) : Bool := 0xd800 ≤ n && n < 0xdc00

def isLowSurrogate (n : Nat) : Bool := 0xdc00 ≤ n && n < 0xe000

/-- The character that one escape with a number stands for, if it is no half of
a pair. -/
def escapedUnit? (n : Nat) : Option Char :=
  if isHighSurrogate n || isLowSurrogate n then none else some (Char.ofNat n)

def pairedUnits (high low : Nat) : Char :=
  Char.ofNat (0x10000 + (high - 0xd800) * 0x400 + (low - 0xdc00))

def push (read : Option (List Char)) (c : Option Char) : Option (List Char) :=
  match read, c with
  | some read, some c => some (c :: read)
  | _, _ => none

/-- The rest of a string whose characters so far are `read`, newest first, if
they are text, and what comes after the closing quote. -/
def scanString (read : Option (List Char)) : List Char → Option (Option String × List Char)
  | '"' :: rest => some (read.map fun read => String.ofList read.reverse, rest)
  | '\\' :: 'u' :: a :: b :: c :: d :: '\\' :: 'u' :: e :: f :: g :: h :: rest =>
      match hex4? a b c d, hex4? e f g h with
      | some high, some low =>
          if isHighSurrogate high && isLowSurrogate low then
            scanString (push read (some (pairedUnits high low))) rest
          else
            scanString (push read (escapedUnit? high)) ('\\' :: 'u' :: e :: f :: g :: h :: rest)
      | _, _ => none
  | '\\' :: 'u' :: a :: b :: c :: d :: rest =>
      match hex4? a b c d with
      | some n => scanString (push read (escapedUnit? n)) rest
      | none => none
  | '\\' :: c :: rest =>
      match escaped? c with
      | some c => scanString (push read (some c)) rest
      | none => none
  | c :: rest => if c.toNat < 0x20 then none else scanString (push read (some c)) rest
  | [] => none

def scanDigits (text : List Char) : Option (List Char × List Char) :=
  match text.span Char.isDigit with
  | ([], _) => none
  | digits => some digits

/-- The integer part: no digit comes after a leading zero. -/
def scanWhole : List Char → Option (List Char × List Char)
  | '0' :: rest => some (['0'], rest)
  | text => scanDigits text

def scanFraction : List Char → Option (List Char × List Char)
  | '.' :: rest => (scanDigits rest).map fun (digits, rest) => ('.' :: digits, rest)
  | text => some ([], text)

def scanExponent : List Char → Option (List Char × List Char)
  | e :: sign :: rest =>
      if e = 'e' ∨ e = 'E' then
        if sign = '+' ∨ sign = '-' then
          (scanDigits rest).map fun (digits, rest) => (e :: sign :: digits, rest)
        else (scanDigits (sign :: rest)).map fun (digits, rest) => (e :: digits, rest)
      else some ([], e :: sign :: rest)
  | [e] => if e = 'e' ∨ e = 'E' then none else some ([], [e])
  | [] => some ([], [])

def scanNumber (text : List Char) : Option (Token × List Char) := do
  let (sign, text) := match text with
    | '-' :: rest => (['-'], rest)
    | _ => ([], text)
  let (whole, text) ← scanWhole text
  let (fraction, text) ← scanFraction text
  let (exponent, text) ← scanExponent text
  some (scalar (number (String.ofList (sign ++ whole ++ fraction ++ exponent))), text)

def scanOne : List Char → Option (Token × List Char)
  | '[' :: rest => some (openArray, rest)
  | ']' :: rest => some (closeArray, rest)
  | '{' :: rest => some (openObject, rest)
  | '}' :: rest => some (closeObject, rest)
  | ',' :: rest => some (comma, rest)
  | ':' :: rest => some (colon, rest)
  | '"' :: rest => (scanString (some []) rest).map fun (value, rest) => (string value, rest)
  | 'n' :: 'u' :: 'l' :: 'l' :: rest => some (scalar null, rest)
  | 't' :: 'r' :: 'u' :: 'e' :: rest => some (scalar (bool true), rest)
  | 'f' :: 'a' :: 'l' :: 's' :: 'e' :: rest => some (scalar (bool false), rest)
  | text => scanNumber text

def isBlank (c : Char) : Bool := c == ' ' || c == '\n' || c == '\t' || c == '\r'

/-- The tokens of a text with at most so many characters. -/
def scan : Nat → List Char → Option (List Token)
  | _, [] => some []
  | 0, _ :: _ => none
  | size + 1, c :: rest =>
      if isBlank c then scan size rest
      else
        match scanOne (c :: rest) with
        | none => none
        | some (token, rest) => (scan size rest).map (token :: ·)

end Token

def tokens? (text : String) : Option (List Token) := Token.scan text.length text.toList

end RegularLanguages.Json
