import TidySheet.Files.Path

/-!
# A directory of files in memory

The command works on a snapshot of the files below a root directory. A directory is there because it
is named, or because a file or the working directory is below it.

* `Workspace.write_self` : what was written to a file is what it holds.
* `Workspace.write_other` : no other file changes.
-/

set_option autoImplicit false

namespace TidySheet

inductive Content where
  | text (s : String)
  /-- Bytes that are not UTF-8. -/
  | binary (bytes : List UInt8)
  deriving DecidableEq, Repr

/-- The names that lead from the root to a file or directory. -/
abbrev Place := List String

/-- Why a path cannot be read. -/
inductive FileError where
  | notFound
  | notDirectory
  | isDirectory
  | notText
  deriving DecidableEq, Repr

def FileError.message : FileError → String
  | .notFound => "No such file or directory (os error 2)"
  | .notDirectory => "Not a directory (os error 20)"
  | .isDirectory => "Is a directory (os error 21)"
  | .notText => "stream did not contain valid UTF-8"

structure Workspace where
  /-- The absolute path of the root, without a slash at its end. -/
  root : String
  /-- The working directory. -/
  cwd : Place
  files : List (Place × Content)
  /-- Directories that are there even if nothing is in them. -/
  directories : List Place
  deriving DecidableEq, Repr

namespace Workspace

def file? (w : Workspace) (p : Place) : Option Content :=
  (w.files.find? fun f => f.1 == p).map (·.2)

def isDirectory (w : Workspace) (p : Place) : Bool :=
  p.isPrefixOf w.cwd || w.directories.any p.isPrefixOf ||
    w.files.any fun f => p.isPrefixOf f.1 && p.length < f.1.length

/-- Whether there is a file or a directory at a place. -/
def isThere (w : Workspace) (p : Place) : Bool := w.isDirectory p || (w.file? p).isSome

/-- The absolute path of a place. -/
def absolute (w : Workspace) (p : Place) : String :=
  w.root ++ "/" ++ String.intercalate "/" p

/-- Follows the segments of a path from a place. Each of them, also an empty one, needs a directory
to go on from; a path out of the workspace leads nowhere. -/
def follow (w : Workspace) (p : Place) : List (List Char) → Except FileError Place
  | [] => if w.isThere p then .ok p else .error .notFound
  | s :: ss =>
    if w.isDirectory p then
      if s = [] ∨ s = ['.'] then follow w p ss
      else if s = ['.', '.'] then
        if p.isEmpty then .error .notFound else follow w p.dropLast ss
      else follow w (p ++ [String.ofList s]) ss
    else .error (if (w.file? p).isSome then .notDirectory else .notFound)

/-- The place that a path leads to from the working directory, or from the root if the path is
absolute. -/
def resolve (w : Workspace) (path : String) : Except FileError Place :=
  match path.toList with
  | [] => .error .notFound
  | '/' :: _ =>
    match w.root.toList.isPrefixOf? path.toList with
    | some [] => w.follow [] []
    | some ('/' :: rest) => w.follow [] (rest.splitOn '/')
    | _ => .error .notFound
  | cs => w.follow w.cwd (cs.splitOn '/')

/-- The text of the file at a place. -/
def readPlace (w : Workspace) (p : Place) : Except FileError String :=
  match w.file? p with
  | some (.text s) => .ok s
  | some (.binary _) => .error .notText
  | none => .error (if w.isDirectory p then .isDirectory else .notFound)

/-- The text of the file that a path leads to. -/
def read (w : Workspace) (path : String) : Except FileError String := do
  w.readPlace (← w.resolve path)

/-- Puts a text into a file. -/
def write (w : Workspace) (p : Place) (s : String) : Workspace :=
  { w with files := w.files.map fun f => if f.1 = p then (p, .text s) else f }

/-- Puts a text into the file that a path leads to. -/
def save (w : Workspace) (path s : String) : Workspace :=
  match w.resolve path with
  | .ok p => w.write p s
  | .error _ => w

theorem write_self (w : Workspace) (p : Place) (s : String) (h : (w.file? p).isSome) :
    (w.write p s).file? p = some (.text s) := by
  simp only [file?, Option.isSome_map, List.find?_isSome, beq_iff_eq] at h
  simp only [file?, write]
  generalize w.files = files at h ⊢
  induction files with
  | nil => simp at h
  | cons f fs ih =>
    by_cases hf : f.1 = p
    · simp [hf]
    · have : (f.1 == p) = false := by simpa using hf
      simp only [List.map_cons, if_neg hf, List.find?_cons, this]
      refine ih ?_
      obtain ⟨g, hg, hgp⟩ := h
      rcases List.mem_cons.1 hg with rfl | hg
      · exact absurd hgp hf
      · exact ⟨g, hg, hgp⟩

theorem write_other (w : Workspace) (p q : Place) (s : String) (h : q ≠ p) :
    (w.write p s).file? q = w.file? q := by
  simp only [file?, write]
  induction w.files with
  | nil => rfl
  | cons f fs ih =>
    by_cases hf : f.1 = p
    · have hp : (p == q) = false := by simpa using fun e => h e.symm
      simp only [List.map_cons, hf, if_true, List.find?_cons, hp]
      exact ih
    · simp only [List.map_cons, if_neg hf, List.find?_cons]
      cases f.1 == q with
      | true => rfl
      | false => exact ih

end Workspace

end TidySheet
