import TidySheet.Command.Run

/-!
# The program

Takes a snapshot of the files that the arguments can reach, runs the command on it, prints what it
says and writes the files that it changed.
-/

set_option autoImplicit false

namespace TidySheet.Command

open Args (Options)

/-- The place that a path names from a directory, whether something is there or not. -/
def placeFrom (p : Place) : List (List Char) → Place
  | [] => p
  | s :: ss =>
    if s = [] ∨ s = ['.'] then placeFrom p ss
    else if s = ['.', '.'] then placeFrom p.dropLast ss
    else placeFrom (p ++ [String.ofList s]) ss

/-- The place that a path names from the working directory. -/
def placeOf (cwd : Place) (path : String) : Place :=
  match path.toList with
  | '/' :: cs => placeFrom [] (cs.splitOn '/')
  | cs => placeFrom cwd (cs.splitOn '/')

def contentOf (bytes : ByteArray) : Content :=
  match String.fromUTF8? bytes with
  | some s => .text s
  | none => .binary bytes.toList

/-- The places that a configuration is looked for: in each directory from a place up to the root. -/
def configPlaces (p : Place) : List Place :=
  (List.range (p.length + 1)).map fun n => p.take n ++ [configName]

/-- The changes between two snapshots: what files hold now. -/
def written (before after : Workspace) : List (Place × String) :=
  after.files.filterMap fun f =>
    match f.2 with
    | .text s => if before.file? f.1 = some f.2 then none else some (f.1, s)
    | .binary _ => none

/-! ## Reading and writing files -/

/-- Adds the file at a place to a snapshot. -/
def loadFile (w : Workspace) (p : Place) : IO Workspace := do
  if (w.file? p).isSome then return w
  let content := contentOf (← IO.FS.readBinFile (w.absolute p))
  return { w with files := w.files ++ [(p, content)] }

/-- Adds a directory and the stylesheets below it. Links below it are not followed. -/
partial def loadDirectory (w : Workspace) (p : Place) : IO Workspace := do
  let path := (← IO.currentDir) / w.absolute p
  (← path.readDir).foldlM (fun w entry => do
    let place := p ++ [entry.fileName]
    match (← entry.path.symlinkMetadata).type with
    | .dir => loadDirectory w place
    | .file => if (Path.dialect? entry.fileName).isSome then loadFile w place else return w
    | _ => return w) { w with directories := p :: w.directories }

/-- Adds what is at a place, if anything is. -/
def load (w : Workspace) (p : Place) : IO Workspace := do
  let path := (← IO.currentDir) / w.absolute p
  if ← path.isDir then loadDirectory w p
  else if ← path.pathExists then loadFile w p
  else return w

/-- A snapshot of all that a run with some options looks at. -/
def snapshot (cwd : Place) (o : Options) : IO Workspace := do
  let named := (o.paths ++ o.config.toList).map (placeOf cwd)
  (named ++ configPlaces cwd).foldlM load ⟨"", cwd, [], []⟩

def save (w : Workspace) (file : Place × String) : IO Unit :=
  IO.FS.writeFile (w.absolute file.1) file.2

/-- Runs the command on the files themselves. -/
def execute (services : Services) (args : List String) : IO UInt32 := do
  let cwd := placeOf [] (← IO.currentDir).toString
  let before ←
    match services.arguments args with
    | .error _ => pure ⟨"", cwd, [], []⟩
    | .ok o => snapshot cwd o
  let outcome := runArgs services before args
  (written before outcome.workspace).forM (save before)
  IO.print outcome.output.out
  IO.eprint outcome.output.err
  return outcome.code.toUInt32

end TidySheet.Command

def main (args : List String) : IO UInt32 := TidySheet.Command.execute .builtIn args
