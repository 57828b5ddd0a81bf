import TidySheet.Services

/-!
# Walks through directories

A walk comes upon the directory itself and all directories and files below it. One way to fill in
`Services.walk`.

* `Workspace.below` : the entries of a walk.
-/

set_option autoImplicit false

namespace TidySheet.Workspace

/-- The names that lead to a place and to the directories on the way, the root first. -/
def onTheWay (p : Place) : List Place := (List.range (p.length + 1)).map p.take

/-- The places of all directories. -/
def directoryPlaces (w : Workspace) : List Place :=
  ((w.cwd :: w.directories).flatMap onTheWay ++
    w.files.flatMap fun f => onTheWay f.1.dropLast).eraseDups

/-- The path of what is below a directory; its own path if that is nothing. -/
def pathBelow (path : String) : Place → String
  | [] => path
  | names => Path.join path (String.intercalate "/" names)

/-- The entries among some places that are at or below a directory. -/
def entriesAt (path : String) (p : Place) (isFile : Bool) (places : List Place) : List Entry :=
  places.filterMap fun q => (p.isPrefixOf? q).map fun names => ⟨pathBelow path names, isFile⟩

/-- The entries at and below the directory that a path leads to. -/
def below (w : Workspace) (path : String) : List Entry :=
  match w.resolve path with
  | .error _ => []
  | .ok p =>
    entriesAt path p false w.directoryPlaces ++ entriesAt path p true (w.files.map Prod.fst)

end TidySheet.Workspace
