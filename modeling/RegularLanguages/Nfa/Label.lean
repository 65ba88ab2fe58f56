import RegularLanguages.TableError

/-! # Labels of transitions

A transition reads one given character, any one character, or nothing.  In a
table the empty text, `ε` and `λ` stand for reading nothing and `.` for any
character, so the table form has no way to write those three as characters. -/
set_option autoImplicit false
namespace RegularLanguages

inductive Label where
  | symbol (c : Char)
  | any
  | epsilon
deriving DecidableEq

namespace Label

def reads : Label → Char → Bool
  | symbol c, d => c == d
  | any, _ => true
  | epsilon, _ => false

def symbol? : Label → Option Char
  | symbol c => some c
  | any => none
  | epsilon => none

/-- Characters in their order, then any, then nothing. -/
def rank : Label → Nat
  | symbol c => c.toNat
  | any => 0x110000
  | epsilon => 0x110001

def text : Label → String
  | symbol c => c.toString
  | any => "."
  | epsilon => "ε"

def ofChar : Char → Label
  | 'ε' => epsilon
  | 'λ' => epsilon
  | '.' => any
  | c => symbol c

def ofText (text : String) : Except TableError Label :=
  match text.toList with
  | [] => .ok epsilon
  | [c] => .ok (ofChar c)
  | _ :: _ :: _ => .error (.invalidSymbol text)

end Label

end RegularLanguages
