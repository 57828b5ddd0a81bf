import TidySheet.Node.Walk
import TidySheet.Rule.Basic

/-!
# Colons of a block in one column

The whitespace before each colon is widened until the colons of a block's declarations share a
column. Only the first declaration of a line takes part: widening it moves the others of its line.

* `padEnd_eq` : whitespace at the end is widened, or new whitespace is put behind the list.
-/

set_option autoImplicit false

namespace TidySheet.Colons

/-- Where the colon of a declaration stands. -/
def colon? (n : Node) : Option Position :=
  if n.is .declaration then (n.first? .propertyDelimiter).map (·.span.first) else none

/-- For each child, the column of its colon if it takes part; `line` is that of the colon before. -/
def columns (line : Option Nat) : List Node → List (Option Nat)
  | [] => []
  | n :: ns =>
    match colon? n with
    | none => none :: columns line ns
    | some p =>
      (if line = some p.line then none else some p.column) :: columns (some p.line) ns

/-- The columns of the colons that take part in a block's alignment. -/
def colonColumns (block : Node) : List Nat := (columns none block.children).filterMap id

/-- Adds spaces to the whitespace at the end of a list of nodes, or behind the list. -/
def padEnd (d : Dialect) (padding : List Char) : List Node → List Node
  | [] => [.ofSpace d padding]
  | [.leaf l t] =>
    if l.kind = .space then [.leaf l (t ++ padding)] else [.leaf l t, .ofSpace d padding]
  | n :: ns => n :: padEnd d padding ns

theorem padEnd_eq (d : Dialect) (padding : List Char) (ns : List Node) :
    (∃ ms l t, l.kind = .space ∧ ns = ms ++ [.leaf l t] ∧
      padEnd d padding ns = ms ++ [.leaf l (t ++ padding)]) ∨
    padEnd d padding ns = ns ++ [.ofSpace d padding] := by
  fun_induction padEnd d padding ns with
  | case1 => exact .inr rfl
  | case2 l t hk => exact .inl ⟨[], l, t, hk, rfl, rfl⟩
  | case3 l t hk => exact .inr rfl
  | case4 n ns _ ih =>
    rcases ih with ⟨ms, l, t, hk, hns, hpad⟩ | hpad
    · exact .inl ⟨n :: ms, l, t, hk, by rw [hns]; rfl, by rw [hpad]; rfl⟩
    · exact .inr (by rw [hpad]; rfl)

/-- Moves the colon of a declaration to the right. -/
def padColon (width : Nat) (declaration : Node) : Node :=
  if width = 0 then declaration
  else
    match Node.cutFirst? (·.is .propertyDelimiter) declaration.children with
    | none => declaration
    | some (before, colon, behind) =>
      declaration.withChildren
        (padEnd declaration.dialect (List.replicate width ' ') before ++ colon :: behind)

/-- Moves the colons that take part to the column `target`. -/
def padAll (target : Nat) : List Node → List (Option Nat) → List Node
  | n :: ns, some column :: cs => padColon (target - column) n :: padAll target ns cs
  | n :: ns, none :: cs => n :: padAll target ns cs
  | ns, [] => ns
  | [], _ => []

def alignBlock (block : Node) : Node :=
  match (colonColumns block).max? with
  | none => block
  | some target =>
    block.withChildren (padAll target block.children (columns none block.children))

def isAligned (block : Node) : Bool :=
  match colonColumns block with
  | [] => true
  | c :: cs => cs.all (· == c)

def name : String := "align-colons"

def reshape (tree : Node) : Except RuleError Node := do
  let tree ← reparse name tree
  return tree.mapBlocks alignBlock

def votes (tree : Node) : Except RuleError (List Bool) := do
  let tree ← reparse name tree
  return tree.blocks.map isAligned

def rule : Rule where
  name := name
  description := "Align the colons of declarations within a block"
  runBefore := none
  dialects := Dialect.all
  accepts := [true]
  reshape := reshape
  votes := votes

end TidySheet.Colons
