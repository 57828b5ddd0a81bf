/-!
# Values in JSON
-/

set_option autoImplicit false

namespace TidySheet

inductive Json where
  | bool (b : Bool)
  | number (n : Int)
  | string (s : String)
  | array (items : List Json)
  | object (fields : List (String × Json))

def Json.strings (xs : List String) : Json := .array (xs.map .string)

end TidySheet
