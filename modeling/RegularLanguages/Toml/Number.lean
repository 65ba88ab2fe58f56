import RegularLanguages.Text.Character

/-! # The numbers of TOML

A whole number is decimal, with or without a sign, or is in another base, with
the mark of the base.  A float has a fraction, an exponent or both.  Single
underscores may part the digits of any number.

Only the form of a whole number is looked at when it is read; its value is
computed when a setting takes it. -/
set_option autoImplicit false
namespace RegularLanguages.Toml

/-- A whole number as it is written, without the mark of its base and without
underscores. -/
structure Numeral where
  base : Nat
  digits : List Char
deriving DecidableEq

def isDigitIn (base : Nat) (c : Char) : Bool :=
  match Text.hexDigit? c with
  | some digit => digit < base
  | none => false

/-- Whether every underscore stands between two digits, in a text that comes
after the given character. -/
def underscoresFit (isDigit : Char → Bool) : Char → List Char → Bool
  | _, [] => true
  | before, c :: rest =>
      (c != '_' || (isDigit before && rest.head?.any isDigit)) && underscoresFit isDigit c rest

def withoutSign : List Char → List Char
  | '+' :: rest => rest
  | '-' :: rest => rest
  | text => text

def withoutUnderscores (text : List Char) : List Char := text.filter (· != '_')

namespace Numeral

def natural? (base : Nat) (digits : List Char) : Option Nat :=
  if digits.isEmpty || !digits.all (isDigitIn base) then none
  else (digits.mapM Text.hexDigit?).map (Text.ofDigits base)

def value? (n : Numeral) : Option Int :=
  let size := (natural? n.base (withoutSign n.digits)).map Int.ofNat
  if n.digits.head? = some '-' then size.map fun value => -value else size

end Numeral

/-- Whether a text has the form of a decimal number without its sign: no zero
comes before another character.  Behind an underscore there may be more than
decimal digits, which is found out when the value is taken, but nothing that
makes the text a float or parts it; the neighbours of underscores are
hexadecimal digits at least. -/
def isDecimal : List Char → Bool
  | [] => false
  | ['0'] => true
  | '0' :: _ => false
  | digits =>
      match digits.span Char.isDigit with
      | ([], _) => false
      | (_, []) => true
      | (_, rest) =>
          rest.head? == some '_' && underscoresFit (isDigitIn 16) ' ' digits &&
            !rest.any fun c => c == '.' || c == 'e' || c == 'E' || c == ' '

def markedDigits? (base : Nat) (digits : List Char) : Option Numeral :=
  if digits.all (fun c => isDigitIn base c || c == '_') &&
      underscoresFit (isDigitIn base) ' ' digits
  then some ⟨base, withoutUnderscores digits⟩
  else none

def integer? : List Char → Option Numeral
  | '0' :: 'x' :: digits => markedDigits? 16 digits
  | '0' :: 'o' :: digits => markedDigits? 8 digits
  | '0' :: 'b' :: digits => markedDigits? 2 digits
  | text => if isDecimal (withoutSign text) then some ⟨10, withoutUnderscores text⟩ else none

/-- Whether a text is made of digits, which may begin with zeros. -/
def isDigits (text : List Char) : Bool :=
  !text.isEmpty && text.all (fun c => c.isDigit || c == '_') && underscoresFit Char.isDigit ' ' text

def isFraction : List Char → Bool
  | [] => true
  | _ :: digits => isDigits digits

def isExponent : List Char → Bool
  | [] => true
  | _ :: digits => isDigits (withoutSign digits)

/-- Whether digits may stand before the point: no zero comes before another
digit. -/
def isWholePart : List Char → Bool
  | ['0'] => true
  | '0' :: _ => false
  | digits => isDigits digits

def isFloat (text : List Char) : Bool :=
  match withoutSign text with
  | ['i', 'n', 'f'] => true
  | ['n', 'a', 'n'] => true
  | digits =>
      let (mantissa, exponent) := digits.span fun c => c != 'e' && c != 'E'
      let (whole, fraction) := mantissa.span fun c => c != '.'
      isWholePart whole && isFraction fraction && isExponent exponent &&
        !(fraction.isEmpty && exponent.isEmpty)

end RegularLanguages.Toml
