import TidySheet.Parse.Sheet
import TidySheet.Settings

/-!
# Rules

A rule reshapes a tree to follow one convention, and votes on whether the blocks of a tree follow it
already. It knows the dialects it is for and may name a rule that has to run behind it.

* `reparse` writes a tree out and reads it again, so that all places in it are right.
-/

set_option autoImplicit false

namespace TidySheet

inductive RuleError where
  | unsupportedDialect (rule : String) (dialect : Dialect)
  | reparse (rule : String) (cause : ParseError)
  | reparseMismatch (rule : String)
  | unknownRule (name : String)
  | invalidValue (rule : String) (value : Setting)
  | cycle (names : List String)
  | parse (cause : ParseError)
  deriving DecidableEq, Repr

namespace RuleError

def message : RuleError → String
  | .unsupportedDialect rule d => s!"Rule '{rule}' does not support {d.name} syntax"
  | .reparse rule cause => s!"Rule '{rule}' could not re-parse the tree: {cause.message}"
  | .reparseMismatch rule =>
    s!"Rule '{rule}' re-parsed a tree that no longer serializes to its input"
  | .unknownRule name => s!"Unknown rule '{name}'"
  | .invalidValue rule value => s!"Invalid value {value.display} for rule '{rule}'"
  | .cycle names =>
    "Rules cannot be ordered, run-before cycle through: " ++ String.intercalate ", " names
  | .parse cause => cause.message

/-- The messages of an error and of the error that caused it. -/
def chain (e : RuleError) : List String :=
  match e with
  | .reparse _ cause => [e.message, cause.message]
  | _ => [e.message]

end RuleError

structure Rule where
  name : String
  description : String
  /-- A rule that runs behind this one, if both run. -/
  runBefore : Option String
  dialects : List Dialect
  /-- The values that turn the rule on. -/
  accepts : List Bool
  /-- Brings a tree into the rule's form. -/
  reshape : Node → Except RuleError Node
  /-- One vote for each block that the rule has a say on, in document order. -/
  votes : Node → Except RuleError (List Bool)

namespace Rule

def supports (r : Rule) (d : Dialect) : Bool := r.dialects.contains d

def allows (r : Rule) : Setting → Bool
  | .bool b => r.accepts.contains b
  | _ => false

/-- Reshapes a tree of a dialect that the rule is for. -/
def process (r : Rule) (tree : Node) : Except RuleError Node :=
  if r.supports tree.dialect then r.reshape tree
  else .error (.unsupportedDialect r.name tree.dialect)

/-- Votes on a tree of a dialect that the rule is for. -/
def detect (r : Rule) (tree : Node) : Except RuleError (List Bool) :=
  if r.supports tree.dialect then r.votes tree
  else .error (.unsupportedDialect r.name tree.dialect)

end Rule

/-- Writes a tree out and reads it again. The root keeps its kind and dialect; its children and its
span are those of the text. -/
def reparse (rule : String) (tree : Node) : Except RuleError Node :=
  match parseChars tree.dialect tree.chars with
  | .error cause => .error (.reparse rule cause)
  | .ok fresh =>
    if fresh.chars = tree.chars then
      .ok (.branch { tree.label with span := fresh.span } fresh.children)
    else .error (.reparseMismatch rule)

end TidySheet
