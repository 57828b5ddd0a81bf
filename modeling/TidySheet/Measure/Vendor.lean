/-!
# Vendor prefixes

A name may start with the mark of a browser vendor. Alignment works on what is left, its base name,
and on the columns that the mark and the indent before it take.
-/

set_option autoImplicit false

namespace TidySheet

def vendorMarks : List (List Char) :=
  ["-webkit-".toList, "-khtml-".toList, "-moz-".toList, "-ms-".toList, "-o-".toList]

/-- The base name of a name, and the length of the vendor mark before it. -/
def stripVendor (name : List Char) : List Char × Nat :=
  (vendorMarks.findSome? fun mark =>
    (mark.isPrefixOf? name).map fun base => (base, mark.length)).getD (name, 0)

/-- A property or value name in a block, as alignment sees it. -/
structure Occurrence where
  /-- The names that are aligned with each other share their id. -/
  id : List Char
  base : List Char
  /-- Columns of the vendor mark. -/
  mark : Nat
  /-- Columns of whitespace and comments before the name. -/
  extra : Nat
  deriving DecidableEq, Repr

namespace Occurrence

/-- The occurrence of a name; the id is the base name behind its namespace. -/
def ofName (name space : List Char) (extra : Nat) : Occurrence :=
  let (base, mark) := stripVendor name
  ⟨space ++ base, base, mark, extra⟩

/-- Without mark and indent, an occurrence sets no target. -/
def isTrivial (o : Occurrence) : Bool := o.mark == 0 && o.extra == 0

/-- The column offset of the base name. -/
def total (o : Occurrence) : Nat := o.mark + o.extra

end Occurrence

end TidySheet
