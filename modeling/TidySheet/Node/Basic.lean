import TidySheet.Dialect
import TidySheet.Position
import TidySheet.Node.Kind

/-!
# Stylesheet trees

A node is a leaf with text or a branch with children. Its label says what it is, which dialect it
belongs to and where it stands. The printer `Node.chars` puts back the marks that the tree leaves
out: comment markers, the braces of a block, the parentheses of a group.

* `Node.inductionOnChildren` : what holds of a node if it holds of its children holds of all nodes;
* `Node.charsOf_append` : forests print one after the other;
* `Node.sameShape_refl` : the comparison that ignores labels' dialects and spans is reflexive.
-/

set_option autoImplicit false

namespace TidySheet

structure Label where
  kind : Kind
  dialect : Dialect
  span : Span
  deriving DecidableEq, Repr

inductive Node where
  | leaf (label : Label) (text : List Char)
  | branch (label : Label) (children : List Node)
  deriving Repr

namespace Node

/-- Induction along a tree, from the children of a branch to the branch. -/
@[elab_as_elim]
theorem inductionOnChildren {motive : Node → Prop} (leaf : ∀ l t, motive (.leaf l t))
    (branch : ∀ l cs, (∀ c ∈ cs, motive c) → motive (.branch l cs)) (n : Node) : motive n := by
  refine @Node.rec motive (fun ns => ∀ c ∈ ns, motive c) leaf branch (fun c hc => ?_) ?_ n
  · cases hc
  · exact fun m ms hm hms => List.forall_mem_cons.2 ⟨hm, hms⟩

/-! ## Equality -/

mutual

def decEq : (a b : Node) → Decidable (a = b)
  | .leaf l s, .leaf m t =>
    if h : l = m ∧ s = t then isTrue (by rw [h.1, h.2])
    else isFalse fun e => h (by cases e; exact ⟨rfl, rfl⟩)
  | .branch l as, .branch m bs =>
    match decEqAll as bs with
    | isTrue h =>
      if hl : l = m then isTrue (by rw [hl, h])
      else isFalse fun e => hl (by cases e; rfl)
    | isFalse h => isFalse fun e => h (by cases e; rfl)
  | .leaf _ _, .branch _ _ => isFalse fun e => by cases e
  | .branch _ _, .leaf _ _ => isFalse fun e => by cases e

def decEqAll : (as bs : List Node) → Decidable (as = bs)
  | [], [] => isTrue rfl
  | a :: as, b :: bs =>
    match decEq a b with
    | isTrue h =>
      match decEqAll as bs with
      | isTrue hs => isTrue (by rw [h, hs])
      | isFalse hs => isFalse fun e => hs (by cases e; rfl)
    | isFalse h => isFalse fun e => h (by cases e; rfl)
  | [], _ :: _ => isFalse fun e => by cases e
  | _ :: _, [] => isFalse fun e => by cases e

end

instance : DecidableEq Node := decEq

/-! ## Parts -/

def label : Node → Label
  | .leaf l _ => l
  | .branch l _ => l

def kind (n : Node) : Kind := n.label.kind

def dialect (n : Node) : Dialect := n.label.dialect

def span (n : Node) : Span := n.label.span

/-- The text of a leaf, without the marks of a comment. -/
def text? : Node → Option (List Char)
  | .leaf _ t => some t
  | .branch _ _ => none

/-- The children of a branch; a leaf has none. -/
def children : Node → List Node
  | .leaf _ _ => []
  | .branch _ cs => cs

def withLabel (l : Label) : Node → Node
  | .leaf _ t => .leaf l t
  | .branch _ cs => .branch l cs

/-- Puts other children under a branch; a leaf stays as it is. -/
def withChildren (cs : List Node) : Node → Node
  | .leaf l t => .leaf l t
  | .branch l _ => .branch l cs

def is (k : Kind) (n : Node) : Bool := n.kind == k

/-- Whether the node is a leaf with a newline in its text. -/
def hasLineBreak (n : Node) : Bool := n.text?.any (·.contains '\n')

/-! ## Nodes that no source text holds, and branches over placed children -/

def ofText (k : Kind) (d : Dialect) (text : List Char) : Node :=
  .leaf ⟨k, d, .unplaced⟩ text

def ofSpace (d : Dialect) (text : List Char) : Node := ofText .space d text

/-- From the first character of the first node to the last character of the last one. -/
def spanOf (ns : List Node) : Span :=
  ⟨(ns.head?.map fun n => n.span.first).getD .unplaced,
    (ns.getLast?.map fun n => n.span.last).getD .unplaced⟩

def ofChildren (k : Kind) (d : Dialect) (cs : List Node) : Node :=
  .branch ⟨k, d, spanOf cs⟩ cs

/-! ## Printing -/

/-- The marks around the text of a leaf. -/
def leafMarks : Kind → List Char × List Char
  | .multilineComment => (['/', '*'], ['*', '/'])
  | .singlelineComment => (['/', '/'], [])
  | _ => ([], [])

/-- The marks around the children of a branch. -/
def branchMarks (l : Label) : List Char × List Char :=
  match l.kind with
  | .block => if l.dialect.usesBraces then (['{'], ['}']) else ([], [])
  | .arguments => (['('], [')'])
  | .parentheses => (['('], [')'])
  | _ => ([], [])

mutual

def chars : Node → List Char
  | .leaf l t => (leafMarks l.kind).1 ++ t ++ (leafMarks l.kind).2
  | .branch l cs => (branchMarks l).1 ++ charsOf cs ++ (branchMarks l).2

def charsOf : List Node → List Char
  | [] => []
  | n :: ns => n.chars ++ charsOf ns

end

/-- The text of a tree. -/
def render (n : Node) : String := String.ofList n.chars

@[simp] theorem charsOf_nil : charsOf [] = [] := by
  simp only [charsOf]

@[simp] theorem charsOf_cons (n : Node) (ns : List Node) :
    charsOf (n :: ns) = n.chars ++ charsOf ns := by
  simp only [charsOf]

@[simp] theorem charsOf_append (ms ns : List Node) :
    charsOf (ms ++ ns) = charsOf ms ++ charsOf ns := by
  induction ms with
  | nil => simp
  | cons m ms ih => simp [ih]

/-! ## Shape -/

mutual

/-- Same kinds and texts in the same order, whatever the dialects and the places. -/
def sameShape : Node → Node → Bool
  | .leaf l s, .leaf m t => l.kind == m.kind && s == t
  | .branch l as, .branch m bs => l.kind == m.kind && sameShapes as bs
  | _, _ => false

def sameShapes : List Node → List Node → Bool
  | [], [] => true
  | a :: as, b :: bs => sameShape a b && sameShapes as bs
  | _, _ => false

end

mutual

theorem sameShape_refl : ∀ n : Node, sameShape n n = true
  | .leaf l t => by simp [sameShape]
  | .branch l cs => by simp [sameShape, sameShapes_refl cs]

theorem sameShapes_refl : ∀ ns : List Node, sameShapes ns ns = true
  | [] => by simp [sameShapes]
  | n :: ns => by simp [sameShapes, sameShape_refl n, sameShapes_refl ns]

end

end Node

end TidySheet
