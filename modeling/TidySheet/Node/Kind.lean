/-!
# Node kinds

The closed vocabulary of the stylesheet tree, in a fixed order, with the name of each kind.

* `Kind.ofName?_name` : every kind is read back from its name.
-/

set_option autoImplicit false

namespace TidySheet

inductive Kind where
  | stylesheet
  | ruleset
  | selector
  | block
  | declaration
  | property
  /-- The colon between a property and its value. -/
  | propertyDelimiter
  | value
  | ident
  /-- A name and its arguments. -/
  | function
  | arguments
  | parentheses
  | space
  /-- A comment between markers, which are not part of its text. -/
  | multilineComment
  /-- A comment to the end of the line; its text leaves out the marker and the newline. -/
  | singlelineComment
  /-- A semicolon, or in sass a newline. -/
  | declarationDelimiter
  /-- A comma. -/
  | delimiter
  | number
  | string
  | color
  | namedVariable
  | operator
  | important
  | uri
  | atrule
  | atkeyword
  /-- Whatever no other kind fits. -/
  | raw
  deriving DecidableEq, Repr

namespace Kind

def all : List Kind :=
  [.stylesheet, .ruleset, .selector, .block, .declaration, .property, .propertyDelimiter, .value,
    .ident, .function, .arguments, .parentheses, .space, .multilineComment, .singlelineComment,
    .declarationDelimiter, .delimiter, .number, .string, .color, .namedVariable, .operator,
    .important, .uri, .atrule, .atkeyword, .raw]

def name : Kind → String
  | .stylesheet => "stylesheet"
  | .ruleset => "ruleset"
  | .selector => "selector"
  | .block => "block"
  | .declaration => "declaration"
  | .property => "property"
  | .propertyDelimiter => "propertyDelimiter"
  | .value => "value"
  | .ident => "ident"
  | .function => "function"
  | .arguments => "arguments"
  | .parentheses => "parentheses"
  | .space => "space"
  | .multilineComment => "multilineComment"
  | .singlelineComment => "singlelineComment"
  | .declarationDelimiter => "declarationDelimiter"
  | .delimiter => "delimiter"
  | .number => "number"
  | .string => "string"
  | .color => "color"
  | .namedVariable => "variable"
  | .operator => "operator"
  | .important => "important"
  | .uri => "uri"
  | .atrule => "atrule"
  | .atkeyword => "atkeyword"
  | .raw => "raw"

/-- Whether the nodes of this kind that a stylesheet is read into hold text, not children. -/
def isLeaf : Kind → Bool
  | .stylesheet | .ruleset | .selector | .block | .declaration | .property | .value | .function
  | .arguments | .parentheses | .atrule => false
  | _ => true

def ofName? (name : String) : Option Kind :=
  all.find? (fun k => k.name == name)

theorem mem_all (k : Kind) : k ∈ all := by
  cases k <;> decide

theorem ofName?_name (k : Kind) : ofName? k.name = some k := by
  cases k <;> decide +kernel

end Kind

end TidySheet
