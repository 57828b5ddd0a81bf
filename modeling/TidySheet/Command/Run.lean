import TidySheet.BuiltIn.Args
import TidySheet.BuiltIn.ConfigText
import TidySheet.BuiltIn.Glob
import TidySheet.BuiltIn.Json
import TidySheet.BuiltIn.Unified
import TidySheet.BuiltIn.Walk
import TidySheet.Command.Basic

/-!
# The command with services of its own

The services that come with the library, so that it can run by itself. Each is written for the forms
that its module names, and others may take their place: nothing that is proved of the command rests
on these.
-/

set_option autoImplicit false

namespace TidySheet

def commandName : String := "stylecomb"

/-- Reads arguments; a run ends with code 2 if that is not possible. -/
def Args.options (args : List String) : Except Stop Args.Options :=
  match Args.parse args with
  | .error e => .error ⟨2, .ofErr s!"error: {e.message}\n"⟩
  | .ok .version => .error ⟨0, .ofOut s!"{commandName} {version}\n"⟩
  | .ok (.run o) => .ok o

def Services.builtIn : Services where
  arguments := Args.options
  config text :=
    match Config.parse? text with
    | some c => .ok c
    | none => .error "TOML parse error"
  globs := Glob.globs
  walk := Workspace.below
  lineEdits old new := (TidySheet.lineEdits old.toList new.toList).map (Edit.map String.ofList)
  hunks := Unified.hunks
  json j := .ok j.render
  settingsText settings := .ok (Config.settingsText settings)

/-- Whether a configuration leaves a path out. -/
def Config.excludes (c : Config) (path : String) : Bool := c.isLeftOut Services.builtIn.globs path

namespace Command

/-- Does what the arguments asked for. -/
def run (w : Workspace) : Args.Request → Outcome
  | .version => ⟨0, .ofOut s!"{commandName} {version}\n", w⟩
  | .run o => runOptions .builtIn w o

end Command

end TidySheet
