import TidySheet.Dialect

/-!
# Paths

A path is the text it is given as; two paths are compared by their components. Slashes in a row and
single dots do not count, but for a dot in front of a path that has no root.
-/

set_option autoImplicit false

namespace TidySheet.Path

inductive Component where
  | root
  | here
  | parent
  | name (text : String)
  deriving DecidableEq, Repr

/-- The component of a segment; empty ones and dots have none. -/
def Component.ofSegment? (s : List Char) : Option Component :=
  if s = [] ∨ s = ['.'] then none
  else if s = ['.', '.'] then some .parent
  else some (.name (String.ofList s))

def components (path : String) : List Component :=
  let ss := path.toList.splitOn '/'
  let front : List Component :=
    match path.toList with
    | '/' :: _ => [.root]
    | _ => if ss.head? = some ['.'] then [.here] else []
  front ++ ss.filterMap Component.ofSegment?

/-- The order of components: the root, a dot, two dots, names. -/
def Component.rank : Component → Nat
  | .root => 0
  | .here => 1
  | .parent => 2
  | .name _ => 3

def Component.text : Component → String
  | .name text => text
  | _ => ""

/-- Whether the components of one path stand before those of another, or are the same. -/
def precedes : List Component → List Component → Bool
  | [], _ => true
  | _ :: _, [] => false
  | a :: as, b :: bs =>
    if a = b then precedes as bs
    else if a.rank = b.rank then decide (a.text < b.text)
    else decide (a.rank < b.rank)

/-- Whether a path sorts before another or with it. -/
def le (a b : String) : Bool := precedes (components a) (components b)

/-- The last component, if it is a name. -/
def fileName? (path : String) : Option String :=
  match (components path).getLast? with
  | some (.name text) => some text
  | _ => none

/-- What follows the last dot of the file name, if that dot is not its first character. -/
def extension? (path : String) : Option String :=
  (fileName? path).bind fun name =>
    let reversed := name.toList.reverse
    match reversed.dropWhile (· != '.') with
    | [] => none
    | ['.'] => none
    | _ => some (String.ofList (reversed.takeWhile (· != '.')).reverse)

/-- The dialect that a path's extension names. -/
def dialect? (path : String) : Option Dialect :=
  (extension? path).bind Dialect.ofName?

/-- A name below a directory. -/
def join (directory name : String) : String :=
  if directory.endsWith "/" then directory ++ name else directory ++ "/" ++ name

end TidySheet.Path
