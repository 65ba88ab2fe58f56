import RegularLanguages.Json.Basic

/-! # What can be held in memory

A value that is kept as a whole nests at most 127 deep, its numbers are in the
range of doubles and its strings are text. -/
set_option autoImplicit false
namespace RegularLanguages.Json

/-- Reads on a number while it fits into 64 bits; the digits that no longer do
are left. -/
def leadingDigits : Nat → List Char → Nat × List Char
  | n, [] => (n, [])
  | n, c :: rest =>
      let next := 10 * n + (c.toNat - 48)
      if next < Nat.pow 2 64 then leadingDigits next rest else (n, c :: rest)

/-- The nearest number with 53 significant bits, the even one of two. -/
def nearestDouble (n : Nat) : Nat :=
  let unit := Nat.pow 2 (n.log2 - 52)
  let whole := n / unit
  let rest := n % unit
  if unit < 2 * rest ∨ (unit = 2 * rest ∧ whole % 2 = 1) then (whole + 1) * unit
  else whole * unit

/-- Whether a product of doubles, some digits and a power of ten, stays below
what rounds to infinity. -/
def isFinite (digits : Nat) (exponent : Int) : Bool :=
  if digits = 0 ∨ exponent < 0 then true
  else if exponent > 308 then false
  else
    nearestDouble digits * nearestDouble (Nat.pow 10 exponent.toNat) <
      Nat.pow 2 1024 - Nat.pow 2 970

def decimalValue (digits : List Char) : Nat := digits.foldl (fun n c => 10 * n + (c.toNat - 48)) 0

def isFiniteNumber (literal : String) : Bool :=
  let (mantissa, tail) := literal.toList.span fun c => c != 'e' && c != 'E'
  let (whole, fraction) := mantissa.span (· != '.')
  let places := fraction.filter Char.isDigit
  let (front, left) := leadingDigits 0 (whole.filter Char.isDigit)
  let (digits, dropped) := leadingDigits front places
  let shift := Int.ofNat (decimalValue (tail.filter Char.isDigit))
  let exponent := if tail.contains '-' then -shift else shift
  isFinite digits
    (exponent + Int.ofNat left.length - Int.ofNat (places.length - dropped.length))

mutual
def fits (depth : Nat) : Json → Bool
  | null => true
  | bool _ => true
  | number literal => isFiniteNumber literal
  | string _ => true
  | array items => depth ≠ 0 && allFit (depth - 1) items
  | object members => depth ≠ 0 && membersFit (depth - 1) members
  | unreadable => false

def allFit (depth : Nat) : List Json → Bool
  | [] => true
  | item :: rest => fits depth item && allFit depth rest

def membersFit (depth : Nat) : List (String × Json) → Bool
  | [] => true
  | (_, value) :: rest => fits depth value && membersFit depth rest
end

def isHeld (value : Json) : Bool := fits 127 value

end RegularLanguages.Json
