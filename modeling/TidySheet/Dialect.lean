/-!
# Stylesheet dialects

The four dialects of the library and what tells them apart: whether braces delimit blocks and
whether `//` starts a comment.

* `Dialect.ofName?` reads a name in any ASCII letter case;
* `Dialect.ofName?_name` : every dialect is read back from its own name.
-/

set_option autoImplicit false

namespace TidySheet

inductive Dialect where
  | css
  | less
  /-- Indentation delimits the blocks and a newline ends a declaration. -/
  | sass
  | scss
  deriving DecidableEq, Repr

namespace Dialect

/-- All dialects, in alphabetical order. -/
def all : List Dialect := [.css, .less, .sass, .scss]

def name : Dialect → String
  | .css => "css"
  | .less => "less"
  | .sass => "sass"
  | .scss => "scss"

/-- Whether blocks stand between braces. -/
def usesBraces (d : Dialect) : Bool := d ≠ .sass

/-- Whether `//` starts a comment that runs to the end of its line. -/
def hasLineComments (d : Dialect) : Bool := d ≠ .css

/-- The dialect of a name, ASCII letters in either case. -/
def ofName? (name : String) : Option Dialect :=
  match name.toLower with
  | "css" => some .css
  | "less" => some .less
  | "sass" => some .sass
  | "scss" => some .scss
  | _ => none

theorem ofName?_name (d : Dialect) : ofName? d.name = some d := by
  cases d <;> decide +kernel

theorem mem_all (d : Dialect) : d ∈ all := by
  cases d <;> decide

end Dialect

/-- A name that is no dialect's. -/
structure UnknownDialect where
  name : String
  deriving DecidableEq, Repr

def UnknownDialect.message (e : UnknownDialect) : String :=
  s!"Unknown syntax '{e.name}'. Valid options: css, less, sass, scss"

/-- `Dialect.ofName?`, with the name it refuses as the error. -/
def Dialect.ofName (name : String) : Except UnknownDialect Dialect :=
  match Dialect.ofName? name with
  | some d => .ok d
  | none => .error ⟨name⟩

end TidySheet
