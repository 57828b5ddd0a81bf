import TidySheet.NameMap

/-!
# Settings

A setting gives a rule a value; only booleans mean something to the rules, but the others are kept
so that an error can show them.
-/

set_option autoImplicit false

namespace TidySheet

inductive Setting where
  | bool (b : Bool)
  | number (n : Int)
  | text (s : String)
  | list (items : List String)
  deriving DecidableEq, Repr

namespace Setting

/-- A number that fits into 64 bits. -/
def ofInt? (n : Int) : Option Setting :=
  if -0x8000000000000000 ≤ n ∧ n < 0x8000000000000000 then some (.number n) else none

/-- The word for what kind of value a setting is. -/
def typeName : Setting → String
  | .bool _ => "bool"
  | .number _ => "number"
  | .text _ => "string"
  | .list _ => "array"

/-- A setting as errors show it: text in quotes and nothing escaped. -/
def display : Setting → String
  | .bool b => if b then "true" else "false"
  | .number n => toString n
  | .text s => "\"" ++ s ++ "\""
  | .list items => "[" ++ String.intercalate ", " items ++ "]"

end Setting

/-- Rule names and their settings, in the order of the names. -/
abbrev Settings := NameMap Setting

/-- Settings that turn each of the named rules on. -/
def Settings.enabling (names : List String) : Settings :=
  .ofList (names.map fun name => (name, .bool true))

end TidySheet
