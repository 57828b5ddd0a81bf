import TidySheet.Position

/-!
# Why a text is no stylesheet

Each error keeps the position of its culprit: the start of the construct that the end of the text
cuts off, or the token that stands where none of its kind may.
-/

set_option autoImplicit false

namespace TidySheet

/-- A construct that needs its closing mark. -/
inductive Enclosure where
  | block
  | parentheses
  | url
  deriving DecidableEq, Repr

def Enclosure.name : Enclosure → String
  | .block => "block"
  | .parentheses => "parentheses"
  | .url => "url"

inductive ParseError where
  | unterminatedComment (start : Position)
  | unterminatedString (start : Position)
  | unexpected (found : List Char) (start : Position)
  | unclosed (what : Enclosure) (start : Position)
  deriving DecidableEq, Repr

namespace ParseError

def position : ParseError → Position
  | .unterminatedComment p => p
  | .unterminatedString p => p
  | .unexpected _ p => p
  | .unclosed _ p => p

def message : ParseError → String
  | .unterminatedComment p =>
    s!"Unterminated comment starting at line {p.line}, column {p.column}"
  | .unterminatedString p =>
    s!"Unterminated string starting at line {p.line}, column {p.column}"
  | .unexpected found p =>
    s!"Unexpected '{String.ofList found}' at line {p.line}, column {p.column}"
  | .unclosed what p =>
    s!"Unclosed {what.name} opened at line {p.line}, column {p.column}"

end ParseError

end TidySheet
