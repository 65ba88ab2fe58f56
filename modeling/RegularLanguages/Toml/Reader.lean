/-! # Reading from the front of a text

A reader takes a part off the front of a text.  Blanks, comments and line
breaks stand between the parts. -/
set_option autoImplicit false
namespace RegularLanguages.Toml

/-- A part at the front of a text, and what comes after it. -/
abbrev Reader (α : Type) := List Char → Option (α × List Char)

def after? (c : Char) : List Char → Option (List Char)
  | [] => none
  | d :: rest => if d = c then some rest else none

def isBlank (c : Char) : Bool := c == ' ' || c == '\t'

def skipBlanks (text : List Char) : List Char := text.dropWhile isBlank

/-- Whether a character may not stand in strings and comments as it is. -/
def isControl (c : Char) : Bool := (c.toNat < 0x20 && c != '\t') || c.toNat == 0x7f

def lineBreak? : List Char → Option (List Char)
  | '\n' :: rest => some rest
  | '\r' :: '\n' :: rest => some rest
  | _ => none

def skipComment : List Char → List Char
  | '#' :: rest => rest.dropWhile fun c => !isControl c
  | text => text

/-- Passes over blanks, comments and at most so many line breaks. -/
def skipLines : Nat → List Char → List Char
  | 0, text => text
  | size + 1, text =>
      let ahead := skipComment (skipBlanks text)
      match lineBreak? ahead with
      | some rest => skipLines size rest
      | none => ahead

def skipBreaks : Nat → List Char → List Char
  | 0, text => text
  | size + 1, text =>
      let ahead := skipBlanks text
      match lineBreak? ahead with
      | some rest => skipBreaks size rest
      | none => ahead

end RegularLanguages.Toml
