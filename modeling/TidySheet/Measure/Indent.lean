import TidySheet.Node.Basic

/-!
# How far whitespace and comments push a node to the right

A line break or a tab ends the measurement: only what stands behind the last one counts.

* `splitFinalLine_append` : the two parts of a split text make up the text.
-/

set_option autoImplicit false

namespace TidySheet

/-- Characters behind which a line is measured anew. -/
def isBreak (c : Char) : Bool := c == '\n' || c == '\t'

/-- The text through its last break, and what stands behind it. -/
def splitFinalLine : List Char → List Char × List Char
  | [] => ([], [])
  | c :: cs =>
    match splitFinalLine cs with
    | ([], tail) => if isBreak c then ([c], tail) else ([], c :: tail)
    | (head, tail) => (c :: head, tail)

theorem splitFinalLine_append (text : List Char) :
    (splitFinalLine text).1 ++ (splitFinalLine text).2 = text := by
  induction text with
  | nil => rfl
  | cons c cs ih =>
    simp only [splitFinalLine]
    split
    · next tail h =>
      rw [h] at ih
      split <;> simp_all
    · next head tail hne h =>
      rw [h] at ih
      simp_all

structure Indent where
  /-- Columns on the final line. -/
  width : Nat
  /-- Whether a break was met. -/
  lineBreak : Bool
  deriving DecidableEq, Repr

namespace Indent

def none : Indent := ⟨0, false⟩

def widen (i : Indent) (n : Nat) : Indent := ⟨i.width + n, i.lineBreak⟩

/-- Measures nodes from the nearest one back.

Spaces count what stands behind their last break. A comment without a break counts with both its
markers; one with a break counts what stands behind it and the closing marker. Other leaves have no
width here, but a break in them is noted. -/
def measureBack : List Node → Indent
  | [] => .none
  | .branch _ _ :: ns => measureBack ns
  | .leaf l text :: ns =>
    let (head, tail) := splitFinalLine text
    match l.kind with
    | .space =>
      if head.isEmpty then (measureBack ns).widen tail.length else ⟨tail.length, true⟩
    | .multilineComment =>
      if head.isEmpty then (measureBack ns).widen (text.length + 4) else ⟨tail.length + 2, true⟩
    | _ => if head.isEmpty then measureBack ns else ⟨(measureBack ns).width, true⟩

/-- Measures nodes that stand in document order before their target. -/
def measure (ns : List Node) : Indent := measureBack ns.reverse

end Indent

end TidySheet
