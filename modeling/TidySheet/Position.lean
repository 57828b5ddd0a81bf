/-!
# Positions and spans

Lines and columns count from one, columns in characters; only a newline character starts a new
line. A span names the positions of a text's first and last character, both included.

* `Position.after_append` : walking over two texts in a row is walking over their concatenation.
-/

set_option autoImplicit false

namespace TidySheet

structure Position where
  line : Nat
  column : Nat
  deriving DecidableEq, Repr

namespace Position

/-- The place of nodes that no source text holds. -/
def unplaced : Position := ⟨0, 0⟩

/-- Where a text starts. -/
def origin : Position := ⟨1, 1⟩

/-- The position after the character `c` at `p`. -/
def next (p : Position) (c : Char) : Position :=
  if c = '\n' then ⟨p.line + 1, 1⟩ else ⟨p.line, p.column + 1⟩

/-- The position after `text`, which starts at `p`. -/
def after (p : Position) (text : List Char) : Position :=
  text.foldl next p

@[simp] theorem after_nil (p : Position) : p.after [] = p := rfl

@[simp] theorem after_cons (p : Position) (c : Char) (text : List Char) :
    p.after (c :: text) = (p.next c).after text := rfl

theorem after_append (p : Position) (s t : List Char) :
    p.after (s ++ t) = (p.after s).after t :=
  List.foldl_append

end Position

structure Span where
  first : Position
  last : Position
  deriving DecidableEq, Repr

namespace Span

def unplaced : Span := ⟨.unplaced, .unplaced⟩

/-- The span of a text that starts at `p`. -/
def ofText (p : Position) (text : List Char) : Span :=
  ⟨p, p.after text.dropLast⟩

end Span

end TidySheet
