import TidySheet.Files.Path
import TidySheet.Settings

/-!
# Configurations

A configuration gives rules their settings and names paths that are left out. Both are optional.
-/

set_option autoImplicit false

namespace TidySheet

/-- The texts that a pattern fits; `none` if it is no pattern. -/
abbrev Globs := String → Option (String → Bool)

structure Config where
  rules : Settings
  /-- Patterns of paths to leave out. -/
  exclude : List String

namespace Config

def default : Config := ⟨.empty, []⟩

/-- The settings to run with: rules named for this run come first, then the configured ones, and
without either every rule is on. -/
def effective (c : Config) (all named : List String) : Settings :=
  if !named.isEmpty then .enabling named
  else if !c.rules.isEmpty then c.rules
  else .enabling all

/-- Whether `part` stands somewhere in a text. -/
def occursIn (part : List Char) : List Char → Bool
  | [] => part.isEmpty
  | c :: cs => part.isPrefixOf (c :: cs) || occursIn part cs

/-- A pattern that ends in a slash names a directory, anywhere in the path. -/
def isInDirectory (pattern path : String) : Bool :=
  let reversed := pattern.toList.reverse
  reversed.head? == some '/' &&
    let directory := (reversed.dropWhile (· == '/')).reverse ++ ['/']
    occursIn ('/' :: directory) path.toList || directory.isPrefixOf path.toList

/-- Whether a pattern leaves a path out: as a glob of the whole path or of the file name, or as a
directory. What is no glob can still name a directory. -/
def leavesOut (globs : Globs) (pattern path : String) : Bool :=
  let byGlob :=
    match globs pattern with
    | none => false
    | some fits => fits path || (Path.fileName? path).any fits
  byGlob || isInDirectory pattern path

/-- Whether one of the patterns leaves a path out. -/
def isLeftOut (globs : Globs) (c : Config) (path : String) : Bool :=
  c.exclude.any fun pattern => leavesOut globs pattern path

end Config

end TidySheet
