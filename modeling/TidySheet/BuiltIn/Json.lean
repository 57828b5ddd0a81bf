import TidySheet.Report.Json

/-!
# JSON output

Values are written over several lines with two spaces for each level. Empty arrays and objects stay
on one line, and only quotes, backslashes and control characters are escaped. One way to fill in
`Services.json`.
-/

set_option autoImplicit false

namespace TidySheet.Json

def hexDigit (n : Nat) : Char := "0123456789abcdef".toList.getD n '0'

def escape (c : Char) : List Char :=
  match c with
  | '"' => ['\\', '"']
  | '\\' => ['\\', '\\']
  | '\x08' => ['\\', 'b']
  | '\t' => ['\\', 't']
  | '\n' => ['\\', 'n']
  | '\x0c' => ['\\', 'f']
  | '\r' => ['\\', 'r']
  | c =>
    if c.toNat < 32 then ['\\', 'u', '0', '0', hexDigit (c.toNat / 16), hexDigit (c.toNat % 16)]
    else [c]

def quoted (s : String) : String := "\"" ++ String.ofList (s.toList.flatMap escape) ++ "\""

def newline (level : Nat) : String := "\n" ++ String.ofList (List.replicate (2 * level) ' ')

mutual

/-- A value at a level of nesting. -/
def pretty (level : Nat) : Json → String
  | .bool b => if b then "true" else "false"
  | .number n => toString n
  | .string s => quoted s
  | .array [] => "[]"
  | .array (item :: items) =>
    "[" ++ newline (level + 1) ++ pretty (level + 1) item ++ prettyItems (level + 1) items ++
      newline level ++ "]"
  | .object [] => "\x7b\x7d"
  | .object ((key, value) :: fields) =>
    "\x7b" ++ newline (level + 1) ++ quoted key ++ ": " ++ pretty (level + 1) value ++
      prettyFields (level + 1) fields ++ newline level ++ "\x7d"

/-- The items behind the first one. -/
def prettyItems (level : Nat) : List Json → String
  | [] => ""
  | item :: items => "," ++ newline level ++ pretty level item ++ prettyItems level items

/-- The fields behind the first one. -/
def prettyFields (level : Nat) : List (String × Json) → String
  | [] => ""
  | (key, value) :: fields =>
    "," ++ newline level ++ quoted key ++ ": " ++ pretty level value ++ prettyFields level fields

end

def render (j : Json) : String := pretty 0 j

end TidySheet.Json
