import RegularLanguages.Text.Character
import RegularLanguages.Toml.Reader

/-! # Dates and times

A day of the calendar, a time of day, or both, and then perhaps with an offset
from universal time.  Every number has its full count of digits and lies in
its range; a minute may have a leap second. -/
set_option autoImplicit false
namespace RegularLanguages.Toml

structure Date where
  year : Nat
  month : Nat
  day : Nat
deriving DecidableEq

structure Time where
  hour : Nat
  minute : Nat
  second : Option Nat
  fraction : List Char
deriving DecidableEq

inductive DateTime where
  | date (date : Date)
  | time (time : Time)
  /-- A point in time, with the minutes that its clock is ahead of universal
  time if they are known. -/
  | moment (date : Date) (time : Time) (offset : Option Int)
deriving DecidableEq

def readField (count low high : Nat) : Reader Nat := fun text =>
  let field := text.take count
  let n := Text.ofDigits 10 (field.map fun c => c.toNat - 48)
  if field.length = count ∧ field.all Char.isDigit ∧ low ≤ n ∧ n ≤ high then
    some (n, text.drop count)
  else none

namespace Date

def isLeapYear (year : Nat) : Bool :=
  decide (year % 4 = 0) && (decide (year % 100 ≠ 0) || decide (year % 400 = 0))

def daysOf (year month : Nat) : Nat :=
  if month = 2 then if isLeapYear year then 29 else 28
  else if month = 4 ∨ month = 6 ∨ month = 9 ∨ month = 11 then 30
  else 31

/-- A date as in `1979-05-27`. -/
def read : Reader Date := fun text => do
  let (year, text) ← readField 4 0 9999 text
  let text ← after? '-' text
  let (month, text) ← readField 2 1 12 text
  let text ← after? '-' text
  let (day, text) ← readField 2 1 (daysOf year month) text
  some (⟨year, month, day⟩, text)

end Date

namespace Time

def readFraction : Reader (List Char)
  | '.' :: rest =>
      match rest.span Char.isDigit with
      | ([], _) => none
      | digits => some digits
  | text => some ([], text)

/-- A time as in `07:32`, `07:32:00` or `07:32:00.5`. -/
def read : Reader Time := fun text => do
  let (hour, text) ← readField 2 0 23 text
  let text ← after? ':' text
  let (minute, text) ← readField 2 0 59 text
  match after? ':' text with
  | none => some (⟨hour, minute, none, []⟩, text)
  | some text => do
      let (second, text) ← readField 2 0 60 text
      let (fraction, text) ← readFraction text
      some (⟨hour, minute, some second, fraction⟩, text)

end Time

namespace DateTime

/-- The offset of a point in time, if there is one, as in `Z` or `+01:30`. -/
def readOffset : Reader (Option Int)
  | [] => some (none, [])
  | c :: rest =>
      if c = 'Z' ∨ c = 'z' then some (some 0, rest)
      else if c = '+' ∨ c = '-' then do
        let (hours, rest) ← readField 2 0 23 rest
        let rest ← after? ':' rest
        let (minutes, rest) ← readField 2 0 59 rest
        let ahead := Int.ofNat (60 * hours + minutes)
        some (some (if c = '+' then ahead else -ahead), rest)
      else some (none, c :: rest)

def isDivider (c : Char) : Bool := c == 'T' || c == 't' || c == ' '

def ofText? (text : List Char) : Option DateTime :=
  match Date.read text with
  | some (day, []) => some (date day)
  | some (day, c :: rest) =>
      if isDivider c then do
        let (clock, rest) ← Time.read rest
        let (offset, rest) ← readOffset rest
        if rest.isEmpty then some (moment day clock offset) else none
      else none
  | none =>
      match Time.read text with
      | some (clock, []) => some (time clock)
      | _ => none

end DateTime

end RegularLanguages.Toml
