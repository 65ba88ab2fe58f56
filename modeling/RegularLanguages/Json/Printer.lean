import RegularLanguages.Json.Basic

/-! # Writing JSON

One item or member a line, indented by two spaces for each array or object
around it.  Control characters are escaped, other characters stand as they
are. -/
set_option autoImplicit false
namespace RegularLanguages.Json

def escapeChar (c : Char) : List Char :=
  match c with
  | '"' => ['\\', '"']
  | '\\' => ['\\', '\\']
  | '\x08' => ['\\', 'b']
  | '\x0c' => ['\\', 'f']
  | '\n' => ['\\', 'n']
  | '\r' => ['\\', 'r']
  | '\t' => ['\\', 't']
  | c =>
      if c.toNat < 0x20 then
        '\\' :: 'u' :: '0' :: '0' :: (if c.toNat < 0x10 then ['0'] else []) ++
          Nat.toDigits 16 c.toNat
      else [c]

def stringText (value : String) : String :=
  String.ofList ('"' :: value.toList.flatMap escapeChar ++ ['"'])

def lineStart (depth : Nat) : String := "\n" ++ String.ofList (List.replicate (2 * depth) ' ')

mutual
def prettyAt (depth : Nat) : Json → String
  | null => "null"
  | bool true => "true"
  | bool false => "false"
  | number literal => literal
  | string value => stringText value
  | array [] => "[]"
  | array (item :: rest) =>
      "[" ++ lineStart (depth + 1) ++ prettyAt (depth + 1) item ++ prettyItems (depth + 1) rest ++
        lineStart depth ++ "]"
  | object [] => "\x7b\x7d"
  | object ((name, value) :: rest) =>
      "\x7b" ++ lineStart (depth + 1) ++ stringText name ++ ": " ++ prettyAt (depth + 1) value ++
        prettyMembers (depth + 1) rest ++ lineStart depth ++ "\x7d"
  | unreadable => "null"

def prettyItems (depth : Nat) : List Json → String
  | [] => ""
  | item :: rest => "," ++ lineStart depth ++ prettyAt depth item ++ prettyItems depth rest

def prettyMembers (depth : Nat) : List (String × Json) → String
  | [] => ""
  | (name, value) :: rest =>
      "," ++ lineStart depth ++ stringText name ++ ": " ++ prettyAt depth value ++
        prettyMembers depth rest
end

def pretty (value : Json) : String := prettyAt 0 value

end RegularLanguages.Json
