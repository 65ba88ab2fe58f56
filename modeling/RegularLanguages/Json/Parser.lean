import RegularLanguages.Json.Token

/-! # Reading JSON

A text holds exactly one value.  The reader goes through the tokens once and
keeps the arrays and objects that are open, innermost first.  An object with a
name that is no text is unreadable as a whole. -/
set_option autoImplicit false
namespace RegularLanguages.Json

inductive Open where
  | array (items : List Json)
  /-- The value that comes next belongs to `name`.  There are no members, or
  no name, where a name is no text. -/
  | object (members : Option (List (String × Json))) (name : Option String)

def ofString? : Option String → Json
  | some value => string value
  | none => unreadable

def withMember (members : Option (List (String × Json))) (name : Option String) (value : Json) :
    Option (List (String × Json)) :=
  match members, name with
  | some members, some name => some ((name, value) :: members)
  | _, _ => none

def ofMembers? : Option (List (String × Json)) → Json
  | some members => object members.reverse
  | none => unreadable

mutual
def readValue (outer : List Open) : List Token → Option Json
  | .scalar value :: rest => readAfter value outer rest
  | .string value :: rest => readAfter (ofString? value) outer rest
  | .openArray :: .closeArray :: rest => readAfter (array []) outer rest
  | .openArray :: rest => readValue (.array [] :: outer) rest
  | .openObject :: .closeObject :: rest => readAfter (object []) outer rest
  | .openObject :: .string name :: .colon :: rest =>
      readValue (.object (some []) name :: outer) rest
  | _ => none

def readAfter (value : Json) (outer : List Open) : List Token → Option Json
  | [] => if outer.isEmpty then some value else none
  | .comma :: .string name :: .colon :: rest =>
      match outer with
      | .object members last :: outer =>
          readValue (.object (withMember members last value) name :: outer) rest
      | _ => none
  | .comma :: rest =>
      match outer with
      | .array items :: outer => readValue (.array (value :: items) :: outer) rest
      | _ => none
  | .closeArray :: rest =>
      match outer with
      | .array items :: outer => readAfter (array (value :: items).reverse) outer rest
      | _ => none
  | .closeObject :: rest =>
      match outer with
      | .object members last :: outer =>
          readAfter (ofMembers? (withMember members last value)) outer rest
      | _ => none
  | _ => none
end

def parse? (text : String) : Option Json := (tokens? text).bind (readValue [])

end RegularLanguages.Json
