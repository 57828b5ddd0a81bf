import TidySheet.Node.Edit

/-!
# Walking a tree

Walks run depth first in document order and leave out the node they start from.

* `Node.visits` lists all descendants; `Node.visitsOfKind` keeps those of one kind.
* `Node.mapBlocks` changes every block below the root, inner blocks first.
* `Node.reshapeWithin` lets a visitor change each node of a kind before the walk goes on below the
  changed node. A visitor may put new nodes of the kind below the one it is given, and then they are
  visited in turn; so the walk has a bound on the levels it goes down, and `none` says that it was
  too small.
-/

set_option autoImplicit false

namespace TidySheet.Node

/-! ## Looking -/

/-- A node met on a walk, its index among its siblings, and its parent. -/
structure Visit where
  node : Node
  index : Nat
  parent : Node
  deriving DecidableEq, Repr

mutual

/-- All descendants in document order. -/
def visits (n : Node) : List Visit :=
  match n with
  | .leaf _ _ => []
  | .branch l cs => visitsFrom (.branch l cs) 0 cs

/-- The visits of the siblings `ns`, of which the first has index `i`, and of all below them. -/
def visitsFrom (parent : Node) (i : Nat) (ns : List Node) : List Visit :=
  match ns with
  | [] => []
  | n :: ns => ⟨n, i, parent⟩ :: (visits n ++ visitsFrom parent (i + 1) ns)

end

def visitsOfKind (k : Kind) (n : Node) : List Visit :=
  n.visits.filter (·.node.is k)

/-- The blocks below a node, in document order. -/
def blocks (n : Node) : List Node :=
  (n.visitsOfKind .block).map Visit.node

/-! ## Changing blocks -/

mutual

/-- Applies `f` to the node if it is a block, after the blocks below it. -/
def mapBlock (f : Node → Node) (n : Node) : Node :=
  match n with
  | .leaf l t => if l.kind = .block then f (.leaf l t) else .leaf l t
  | .branch l cs =>
    if l.kind = .block then f (.branch l (mapBlocksOf f cs)) else .branch l (mapBlocksOf f cs)

def mapBlocksOf (f : Node → Node) (ns : List Node) : List Node :=
  match ns with
  | [] => []
  | n :: ns => mapBlock f n :: mapBlocksOf f ns

end

/-- Applies `f` to every block below the node, inner blocks first. -/
def mapBlocks (f : Node → Node) (n : Node) : Node :=
  n.withChildren (mapBlocksOf f n.children)

theorem mapBlocksOf_eq_map (f : Node → Node) (ns : List Node) :
    mapBlocksOf f ns = ns.map (mapBlock f) := by
  induction ns with
  | nil => simp [mapBlocksOf]
  | cons n ns ih => simp [mapBlocksOf, ih]

/-! ## Visitors that change what they visit -/

/-- A visitor gets the index of a node among its siblings, and carries a state along. -/
abbrev Visitor (σ : Type) := Nat → Node → σ → Node × σ

/-- Lets `visit` change the nodes of kind `k` among the siblings `ns`, the first of which has index
`i`, and below them, going down at most `levels` levels. -/
def reshapeAll {σ : Type} (k : Kind) (visit : Visitor σ) :
    (levels : Nat) → (i : Nat) → List Node → σ → Option (List Node × σ)
  | _, _, [], s => some ([], s)
  | 0, _, _ :: _, _ => none
  | levels + 1, i, n :: ns, s =>
    let (n, s) := if n.is k then visit i n s else (n, s)
    match reshapeAll k visit levels 0 n.children s with
    | none => none
    | some (cs, s) =>
      match reshapeAll k visit (levels + 1) (i + 1) ns s with
      | none => none
      | some (ns, s) => some (n.withChildren cs :: ns, s)
  termination_by levels _ ns => (levels, ns.length)

/-- Lets `visit` change every node of kind `k` below the root `n`, at most `levels` levels down. -/
def reshapeWithin {σ : Type} (k : Kind) (visit : Visitor σ) (levels : Nat) (n : Node) (s : σ) :
    Option (Node × σ) :=
  (reshapeAll k visit levels 0 n.children s).map fun (cs, s) => (n.withChildren cs, s)

/-! ## Depth -/

mutual

/-- The number of levels below a node. -/
def depth (n : Node) : Nat :=
  match n with
  | .leaf _ _ => 0
  | .branch _ cs => depthOf cs

/-- The number of levels in a list of siblings, their own included. -/
def depthOf (ns : List Node) : Nat :=
  match ns with
  | [] => 0
  | n :: ns => max (depth n + 1) (depthOf ns)

end

end TidySheet.Node
