import TidySheet.Measure.Indent
import TidySheet.Measure.Vendor
import TidySheet.Node.Edit

/-!
# What vendor alignment reads off a block

The names of a block's properties and values, with the whitespace and comments before each. A
property is measured from the last delimiter before it, a value from its colon. Value names are kept
apart by the base name of their property.
-/

set_option autoImplicit false

namespace TidySheet.VendorBlock

/-- The first token of a declaration's property. -/
def propertyName? (n : Node) : Option (List Char) :=
  if n.is .declaration then
    (n.first? .property).bind fun p => p.children.head?.bind Node.text?
  else none

/-- The name at the front of a declaration's value, be it a function's. -/
def valueName? (n : Node) : Option (List Char) :=
  if n.is .declaration then
    (n.first? .value).bind fun v => v.children.head?.bind fun first =>
      match first.kind with
      | .ident => first.text?
      | .function => first.children.head?.bind Node.text?
      | _ => none
  else none

/-- Each child with the siblings since the last delimiter before it, nearest first; `before` are
those of the first child. -/
def withLead (before : List Node) : List Node → List (List Node × Node)
  | [] => []
  | n :: ns => (before, n) :: withLead (if n.is .declarationDelimiter then [] else n :: before) ns

@[simp] theorem length_withLead (before ns : List Node) :
    (withLead before ns).length = ns.length := by
  induction ns generalizing before with
  | nil => rfl
  | cons n ns ih => simp [withLead, ih]

/-- What stands between the colon of a declaration and its value. -/
def valueLead? (n : Node) : Option (List Node) := do
  let (before, _, _) ← Node.cutLast? (·.is .value) n.children
  let (_, _, lead) ← Node.cutLast? (·.is .propertyDelimiter) before
  return lead

/-- The property of a child, measured over the siblings before it. -/
def propertyOccurrence? (before : List Node) (n : Node) : Option Occurrence :=
  (propertyName? n).map fun name => .ofName name [] (Indent.measureBack before).width

/-- The indent of a declaration's value; without colon there is none. -/
def valueIndent (n : Node) : Indent :=
  match valueLead? n with
  | some lead => Indent.measure lead
  | none => .none

def valueOccurrence? (n : Node) : Option Occurrence :=
  (valueName? n).map fun name =>
    let space :=
      match propertyName? n with
      | some property => (stripVendor property).1
      | none => []
    .ofName name space (valueIndent n).width

/-- For each child, the occurrence of its property. -/
def properties (cs : List Node) : List (Option Occurrence) :=
  (withLead [] cs).map fun (before, n) => propertyOccurrence? before n

@[simp] theorem length_properties (cs : List Node) : (properties cs).length = cs.length := by
  simp [properties]

/-- For each child, the occurrence of its value. -/
def values (cs : List Node) : List (Option Occurrence) := cs.map valueOccurrence?

/-- Whether no break stands before any child or any value. -/
def isOneLine (cs : List Node) : Bool :=
  (withLead [] cs).all (fun (before, _) => !(Indent.measureBack before).lineBreak) &&
    cs.all fun n => !(n.is .declaration && (valueIndent n).lineBreak)

/-- All occurrences in a block. -/
def occurrences (cs : List Node) : List Occurrence :=
  (properties cs).filterMap id ++ (values cs).filterMap id

/-- The column offset that the occurrences with an id are moved to: the largest that one of them
has, unless none has a mark or an indent. -/
def target? (os : List Occurrence) (id : List Char) : Option Nat :=
  ((os.filter fun o => o.id == id && !o.isTrivial).map Occurrence.total).max?

end TidySheet.VendorBlock
