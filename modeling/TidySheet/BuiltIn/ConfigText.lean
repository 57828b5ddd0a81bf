import TidySheet.BuiltIn.Toml
import TidySheet.Config.Basic

/-!
# Configurations as text

Rules and patterns stand in tables of their own, and what else the text holds does not matter. One
way to fill in `Services.config` and `Services.settingsText`.
-/

set_option autoImplicit false

namespace TidySheet.Config

def strings? (vs : List Toml.Value) : Option (List String) :=
  vs.mapM fun v =>
    match v with
    | .string s => some s
    | _ => none

def setting? : Toml.Value → Option Setting
  | .bool b => some (.bool b)
  | .integer n => Setting.ofInt? n
  | .string s => some (.text s)
  | .array items => (strings? items).map .list
  | _ => none

def rules? : Option Toml.Value → Option Settings
  | none => some .empty
  | some (.table _ entries) =>
    (entries.mapM fun e => (setting? e.2).map fun v => (e.1, v)).map NameMap.ofList
  | some _ => none

/-- The patterns of paths to leave out, in a table or as the first item of an array. -/
def exclude? : Option Toml.Value → Option (List String)
  | none => some []
  | some (.table _ entries) =>
    match Toml.lookup? "exclude" entries with
    | none => some []
    | some (.array items) => strings? items
    | some _ => none
  | some (.array []) => some []
  | some (.array (.array items :: _)) => strings? items
  | some _ => none

/-- The configuration that a text spells, if it does. -/
def parse? (text : String) : Option Config := do
  let entries ← Toml.parse? text
  let rules ← rules? (Toml.lookup? "rules" entries)
  let exclude ← exclude? (Toml.lookup? "paths" entries)
  return ⟨rules, exclude⟩

/-- Settings as they stand in a configuration. -/
def settingsText (settings : Settings) : String :=
  "[rules]\n" ++ String.join (settings.entries.map fun e => s!"{e.1} = {e.2.display}\n")

end TidySheet.Config
