import TidySheet.Command.Options
import TidySheet.Config.Basic
import TidySheet.Files.Workspace
import TidySheet.Report.Diff
import TidySheet.Report.Json
import TidySheet.Report.Output

/-!
# Services

What the command leaves to others: to read arguments, configurations and patterns, to walk through
directories, to compare texts, and to write JSON and configurations. The command is a function of
them, and what is proved of it holds whatever they do, or as far as they do what is said of them.
-/

set_option autoImplicit false

namespace TidySheet

/-- An end of the run by whoever reads the arguments: with the version, or with what is wrong. -/
structure Stop where
  code : Nat
  output : Output
  deriving DecidableEq, Repr

/-- Something that a walk through a directory comes upon. -/
structure Entry where
  path : String
  isFile : Bool
  deriving DecidableEq, Repr

structure Services where
  /-- Reads the arguments of the command. -/
  arguments : List String → Except Stop Args.Options
  /-- The configuration that a text spells; the error is its message. -/
  config : String → Except String Config
  globs : Globs
  /-- The entries at and below the directory that a path leads to. -/
  walk : Workspace → String → List Entry
  /-- The edits from one text to another, by lines without their endings. -/
  lineEdits : String → String → List (Edit String)
  /-- The hunks between two texts, with a number of lines around each change. -/
  hunks : Nat → String → String → List Hunk
  json : Json → Except String String
  /-- The text of a configuration with these settings. -/
  settingsText : Settings → Except String String

end TidySheet
