/-! # JSON values

Members of an object keep their order, and a name may occur several times.
Numbers are kept as they are written. -/
set_option autoImplicit false
namespace RegularLanguages

inductive Json where
  | null
  | bool (value : Bool)
  | number (literal : String)
  | string (value : String)
  | array (items : List Json)
  | object (members : List (String × Json))
  /-- A string with half a surrogate pair, or an object with such a name.  It
  can be passed over, but it is no text. -/
  | unreadable
deriving Inhabited

namespace Json

def strings (values : List String) : Json := array (values.map string)

def ofOption {α : Type} (write : α → Json) : Option α → Json
  | some value => write value
  | none => null

def member? {α : Type} (name : String) (write : α → Json) : Option α → List (String × Json)
  | some value => [(name, write value)]
  | none => []

end Json

end RegularLanguages
