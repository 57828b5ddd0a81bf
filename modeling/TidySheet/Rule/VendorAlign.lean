import TidySheet.Node.Walk
import TidySheet.Rule.Basic
import TidySheet.Rule.VendorBlock

/-!
# Names with and without a vendor mark in one column

In each block, properties with one base name are padded so that their base names line up, and so are
the values of such properties. Whitespace that stands before a name is widened; where none stands,
some is put there. In sass the indentation belongs to the blocks, so only values move.
-/

set_option autoImplicit false

namespace TidySheet.VendorAlign

/-- The whitespace `text`, resized on its final line so that the name behind it gets to its
target. -/
def padded? (os : List Occurrence) (o : Occurrence) (text : List Char) : Option (List Char) :=
  (VendorBlock.target? os o.id).map fun target =>
    let (head, tail) := splitFinalLine text
    head ++ List.replicate (target + tail.length - o.total) ' '

/-- The whitespace to put before a name that has none, if it needs some. -/
def gap? (os : List Occurrence) (o : Occurrence) : Option (List Char) :=
  (padded? os o []).filter fun text => !text.isEmpty

/-- A whitespace node, resized for the name behind it. -/
def resize (os : List Occurrence) (o : Occurrence) : Node → Node
  | .leaf l t => .leaf l ((padded? os o t).getD t)
  | .branch l cs => .branch l cs

/-! ## Values -/

/-- The nodes before a value, resized or filled up at their end. -/
def padLead (os : List Occurrence) (o : Occurrence) (d : Dialect) : List Node → List Node
  | [] => ((gap? os o).map (Node.ofSpace d)).toList
  | [n] =>
    if n.is .space then [resize os o n]
    else n :: ((gap? os o).map (Node.ofSpace d)).toList
  | n :: ns => n :: padLead os o d ns

def padValue (os : List Occurrence) (o : Occurrence) (declaration : Node) : Node :=
  match Node.cutLast? (·.is .value) declaration.children with
  | none => declaration
  | some (before, value, behind) =>
    declaration.withChildren (padLead os o declaration.dialect before ++ value :: behind)

/-- Pads the values of a block's declarations. -/
def padValues (os : List Occurrence) (cs : List Node) : List Node :=
  cs.map fun n =>
    match VendorBlock.valueOccurrence? n with
    | some o => padValue os o n
    | none => n

/-! ## Properties -/

/-- The node before a property, with the whitespace the property needs. A comment keeps its place
right before the property. -/
def padSibling (os : List Occurrence) (o : Occurrence) (d : Dialect) (n : Node) : List Node :=
  if n.is .space then [resize os o n]
  else if n.is .multilineComment then ((gap? os o).map (Node.ofSpace d)).toList ++ [n]
  else n :: ((gap? os o).map (Node.ofSpace d)).toList

/-- Pads the properties among the siblings, given the occurrence of each; the first sibling has
nothing before it that could be padded. -/
def padProperties (os : List Occurrence) (d : Dialect) : List (Node × Option Occurrence) → List Node
  | [] => []
  | [(n, _)] => [n]
  | (n, _) :: (m, o) :: rest =>
    (match o with
      | some o => padSibling os o d n
      | none => [n]) ++ padProperties os d ((m, o) :: rest)

/-! ## Blocks -/

/-- Aligns a block of a stylesheet in the dialect `d`. A block on one line is left alone. -/
def alignBlock (d : Dialect) (block : Node) : Node :=
  let cs := block.children
  if VendorBlock.isOneLine cs && d != .sass then block
  else
    let os := VendorBlock.occurrences cs
    let padded := padValues os cs
    if d = .sass then block.withChildren padded
    else
      block.withChildren (padProperties os block.dialect (padded.zip (VendorBlock.properties cs)))

def reshape (tree : Node) : Node := tree.mapBlocks (alignBlock tree.dialect)

/-! ## Votes -/

/-- A count of groups that are aligned and of groups that are not. -/
structure Tally where
  aligned : Nat
  misaligned : Nat
  deriving DecidableEq, Repr

def Tally.cast (t : Tally) : Option Bool → Tally
  | none => t
  | some true => { t with aligned := t.aligned + 1 }
  | some false => { t with misaligned := t.misaligned + 1 }

/-- No verdict without votes; a tie is for aligned. -/
def Tally.verdict (t : Tally) : Option Bool :=
  if t.aligned = 0 ∧ t.misaligned = 0 then none else some (t.misaligned ≤ t.aligned)

/-- A walk along the occurrences of a block: the one before, the vote of the run of one base name
under way, and the votes of the runs that are over. -/
structure Run where
  previous : Option Occurrence
  pending : Option Bool
  tally : Tally
  deriving DecidableEq, Repr

def Run.start (t : Tally) : Run := ⟨none, none, t⟩

/-- Within a run, neighbours with different marks have to end in one column; one pair that does not
spoils the run. -/
def Run.observe (r : Run) (o : Occurrence) : Run :=
  match r.previous with
  | none => ⟨some o, none, r.tally.cast r.pending⟩
  | some p =>
    if p.base = o.base then
      let pending :=
        if p.mark ≠ o.mark ∧ r.pending ≠ some false then some (p.total == o.total) else r.pending
      ⟨some o, pending, r.tally⟩
    else ⟨some o, none, r.tally.cast r.pending⟩

def Run.finish (r : Run) : Tally := r.tally.cast r.pending

/-- Adds the votes of the runs in a sequence of occurrences. -/
def countRuns (t : Tally) (os : List Occurrence) : Tally :=
  (os.foldl Run.observe (.start t)).finish

/-- The properties that vote: all but the first child, which padding cannot move. -/
def votingProperties (cs : List Node) : List Occurrence :=
  ((VendorBlock.properties cs).drop 1).filterMap id

/-- The values that vote: those behind a colon. -/
def votingValues (cs : List Node) : List Occurrence :=
  cs.filterMap fun n =>
    if (VendorBlock.valueLead? n).isSome then VendorBlock.valueOccurrence? n else none

/-- Whether the runs of a block are aligned for the most part; `none` if it has none that vote. -/
def voteBlock (block : Node) : Option Bool :=
  (countRuns (countRuns ⟨0, 0⟩ (votingProperties block.children))
    (votingValues block.children)).verdict

def votes (tree : Node) : List Bool := tree.blocks.filterMap voteBlock

def rule : Rule where
  name := "vendor-prefix-align"
  description := "Align vendor-prefixed properties and values with their unprefixed versions"
  runBefore := some "align-colons"
  dialects := Dialect.all
  accepts := [true]
  reshape tree := .ok (reshape tree)
  votes tree := .ok (votes tree)

end TidySheet.VendorAlign
