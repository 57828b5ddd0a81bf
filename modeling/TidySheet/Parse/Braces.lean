import TidySheet.Parse.Statement

/-!
# Stylesheets whose blocks stand between braces

A fold over the tokens: the reader keeps the blocks that are open, the nodes read so far in the
innermost one, and the tokens of the statement under way. Inside the parentheses of a statement
braces and semicolons are ordinary tokens.
-/

set_option autoImplicit false

namespace TidySheet.Braces

/-- A block whose closing brace is still to come, with its statement and the nodes before it, last
first. -/
structure OpenBlock where
  head : List Token
  brace : Token
  before : List Node

structure Reader where
  /-- Innermost first. -/
  blocks : List OpenBlock
  /-- The nodes of the innermost open block, last first. -/
  nodes : List Node
  /-- The statement under way, last token first; empty between statements. -/
  head : List Token
  /-- The parentheses open in `head`. -/
  depth : Nat

namespace Reader

def start : Reader := ⟨[], [], [], 0⟩

def add (r : Reader) (n : Node) : Reader := { r with nodes := n :: r.nodes }

/-- Takes a token into the statement under way. -/
def grow (r : Reader) (t : Token) : Reader :=
  let depth :=
    match t.kind with
    | .leftParen => r.depth + 1
    | .rightParen => r.depth - 1
    | _ => r.depth
  { r with head := t :: r.head, depth := depth }

/-- Ends the statement under way, if there is one. -/
def endStatement (d : Dialect) (r : Reader) : Except ParseError Reader := do
  let ns ← Statement.withoutBlock d r.head.reverse
  return { r with nodes := ns.reverse ++ r.nodes, head := [], depth := 0 }

def openBlock (r : Reader) (brace : Token) : Reader :=
  ⟨⟨r.head.reverse, brace, r.nodes⟩ :: r.blocks, [], [], 0⟩

def closeBlock (d : Dialect) (r : Reader) (brace : Token) : Except ParseError Reader :=
  match r.blocks with
  | [] => .error brace.unexpected
  | b :: bs => do
    let block := .branch ⟨.block, d, ⟨b.brace.span.first, brace.span.last⟩⟩ r.nodes.reverse
    let n ← Statement.withBlock d b.head block
    return ⟨bs, n :: b.before, [], 0⟩

def step (d : Dialect) (r : Reader) (t : Token) : Except ParseError Reader :=
  if r.depth = 0 then
    match t.kind with
    | .leftBrace => .ok (r.openBlock t)
    | .semicolon => do
      let r ← r.endStatement d
      return r.add (t.leaf d)
    | .rightBrace => do
      let r ← r.endStatement d
      r.closeBlock d t
    | _ =>
      if r.head.isEmpty && t.isTrivia then .ok (r.add (t.leaf d))
      else .ok (r.grow t)
  else .ok (r.grow t)

/-- The nodes of the whole text, unless a block is still open at its end. -/
def finish (d : Dialect) (r : Reader) : Except ParseError (List Node) := do
  let r ← r.endStatement d
  match r.blocks with
  | [] => return r.nodes.reverse
  | b :: _ => .error (b.brace.unclosed .block)

end Reader

def nodes (d : Dialect) (ts : List Token) : Except ParseError (List Node) := do
  let r ← ts.foldlM (Reader.step d) .start
  r.finish d

end TidySheet.Braces
