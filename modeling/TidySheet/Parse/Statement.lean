import TidySheet.Parse.Value

/-!
# Statements

A statement is the run of tokens before a block or before the end of a declaration. It is read into
a ruleset, an at-rule, a declaration, or, when no colon tells a property from a value, one raw leaf.
Whitespace and comments at its ends stay outside, as siblings.
-/

set_option autoImplicit false

namespace TidySheet.Statement

/-- A selector and its block, with the trivia between them. -/
def ruleset (d : Dialect) (head : List Token) (block : Node) : Node :=
  let (selector, trivia) := Token.trimEnd head
  .ofChildren .ruleset d
    (.ofChildren .selector d (Token.leaves d selector) :: Token.leaves d trivia ++ [block])

/-- An at-rule that ends in a block. -/
def blockAtrule (d : Dialect) (keyword : Token) (params : List Token) (block : Node) :
    Except ParseError Node := do
  let (params, trivia) := Token.trimEnd params
  let value ← Value.nodes d params
  return .ofChildren .atrule d (keyword.leaf d :: value ++ Token.leaves d trivia ++ [block])

/-- An at-rule without a block, and the trivia behind it. -/
def plainAtrule (d : Dialect) (keyword : Token) (params : List Token) :
    Except ParseError (List Node) := do
  let (params, trivia) := Token.trimEnd params
  let value ← Value.nodes d params
  return .ofChildren .atrule d (keyword.leaf d :: value) :: Token.leaves d trivia

/-- Cuts at the first colon outside the parentheses, of which `depth` are open. -/
def cutColon? : (depth : Nat) → List Token → Option (List Token × Token × List Token)
  | _, [] => none
  | depth, t :: ts =>
    if t.kind = .colon ∧ depth = 0 then some ([], t, ts)
    else
      let depth :=
        match t.kind with
        | .leftParen => depth + 1
        | .rightParen => depth - 1
        | _ => depth
      (cutColon? depth ts).map fun (before, colon, behind) => (t :: before, colon, behind)

/-- The leaf for a token of a property: an at sign starts a variable there. -/
def propertyLeaf (d : Dialect) (t : Token) : Node :=
  match t.kind with
  | .atKeyword => t.leafAs .namedVariable d
  | _ => t.leaf d

/-- A declaration with a property before the colon and a value behind it. -/
def declaration (d : Dialect) (before : List Token) (colon : Token) (behind : List Token) :
    Except ParseError Node := do
  let (property, propertyTrivia) := Token.trimEnd before
  let (valueTrivia, value) := Token.trimStart behind
  let value ← Value.nodes d value
  return .ofChildren .declaration d
    (.ofChildren .property d (property.map (propertyLeaf d)) :: Token.leaves d propertyTrivia ++
      .leaf ⟨.propertyDelimiter, d, colon.span⟩ [':'] :: Token.leaves d valueTrivia ++
      [.ofChildren .value d value])

/-- A declaration or raw statement, with the trivia around it. -/
def plain (d : Dialect) (ts : List Token) : Except ParseError (List Node) := do
  let (leading, rest) := Token.trimStart ts
  let (core, trailing) := Token.trimEnd rest
  let own ←
    match core with
    | [] => pure []
    | _ =>
      match cutColon? 0 core with
      | none => pure [Token.joined .raw d core]
      | some (before, colon, behind) =>
        let n ← declaration d before colon behind
        pure [n]
  return Token.leaves d leading ++ own ++ Token.leaves d trailing

/-- Whether the tokens behind an at-keyword make it a variable's name. -/
def isLessVariable (d : Dialect) (behind : List Token) : Bool :=
  d == .less && (behind.find? (·.kind != .whitespace)).any (·.kind == .colon)

/-- The nodes of a statement that no block ends. -/
def withoutBlock (d : Dialect) (head : List Token) : Except ParseError (List Node) :=
  match head with
  | [] => .ok []
  | t :: ts =>
    if t.kind = .atKeyword ∧ isLessVariable d ts = false then plainAtrule d t ts
    else plain d (t :: ts)

/-- The node of a statement that ends in a block. -/
def withBlock (d : Dialect) (head : List Token) (block : Node) : Except ParseError Node :=
  match head with
  | [] => .ok (ruleset d [] block)
  | t :: ts =>
    if t.kind = .atKeyword then blockAtrule d t ts block
    else .ok (ruleset d (t :: ts) block)

end TidySheet.Statement
