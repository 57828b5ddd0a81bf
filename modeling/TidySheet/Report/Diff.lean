/-!
# Edits of a text

What tells two versions of a text apart, line by line, and how that is printed: by itself, or in hunks
with the lines around them.
-/

set_option autoImplicit false

namespace TidySheet

inductive Edit (α : Type) where
  | keep (line : α)
  | drop (line : α)
  | add (line : α)
  deriving DecidableEq, Repr

namespace Edit

variable {α β : Type}

def line : Edit α → α
  | .keep a => a
  | .drop a => a
  | .add a => a

def isAdd : Edit α → Bool
  | .add _ => true
  | _ => false

def map (f : α → β) : Edit α → Edit β
  | .keep a => .keep (f a)
  | .drop a => .drop (f a)
  | .add a => .add (f a)

/-- What stands in front of a line in a hunk. -/
def sign : Edit α → String
  | .keep _ => " "
  | .drop _ => "-"
  | .add _ => "+"

/-- A line that is dropped or added. -/
def text : Edit String → String
  | .keep _ => ""
  | .drop line => s!"  - {line}\n"
  | .add line => s!"  + {line}\n"

end Edit

/-- The number of lines that are new. -/
def addedLines {α : Type} (es : List (Edit α)) : Nat := (es.filter Edit.isAdd).length

/-! ## Hunks -/

/-- A line of a hunk, as it is shown. -/
structure HunkLine where
  edit : Edit String
  /-- Whether no newline ends the line in its text. -/
  isOpen : Bool
  deriving DecidableEq, Repr

/-- A run of lines that are changed or near to such a line. -/
structure Hunk where
  header : String
  lines : List HunkLine
  deriving DecidableEq, Repr

def HunkLine.text (l : HunkLine) : String :=
  l.edit.sign ++ l.edit.line ++ if l.isOpen then "\n" else ""

def Hunk.text (h : Hunk) : String := h.header ++ "\n" ++ String.join (h.lines.map HunkLine.text)

/-- The hunks of the file at a path. -/
def unifiedText (path : String) (hunks : List Hunk) : String :=
  s!"--- a/{path}\n+++ b/{path}\n" ++ String.join (hunks.map Hunk.text)

end TidySheet
