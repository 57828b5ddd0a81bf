import TidySheet.Node.Walk
import TidySheet.Rule.Basic

/-!
# Blocks with one statement on one line

A block with at most one declaration or nested ruleset loses its whitespace. A block with a comment
that runs to the end of its line is left alone, and so is sass, whose blocks are indentation.
-/

set_option autoImplicit false

namespace TidySheet.Inlining

/-- Whether the rule applies to a block. -/
def isInlinable (block : Node) : Bool :=
  (block.children.filter fun c => c.is .declaration || c.is .ruleset).length ≤ 1 &&
    (block.first? .singlelineComment).isNone

def inlineBlock (block : Node) : Node :=
  if isInlinable block then block.filterChildren fun c => !c.is .space else block

def reshape (tree : Node) : Node := tree.mapBlocks inlineBlock

/-- An inlinable block is for the rule if it has no whitespace. -/
def votes (tree : Node) : List Bool :=
  (tree.blocks.filter isInlinable).map fun block => (block.first? .space).isNone

def rule : Rule where
  name := "inline-single-declarations"
  description := "Put blocks with a single declaration on one line"
  runBefore := none
  dialects := [.css, .less, .scss]
  accepts := [true]
  reshape tree := .ok (reshape tree)
  votes tree := .ok (votes tree)

end TidySheet.Inlining
