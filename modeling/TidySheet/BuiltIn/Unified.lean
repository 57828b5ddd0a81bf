import TidySheet.BuiltIn.LineDiff

/-!
# Unified diffs

Hunks of changed lines with some lines around them. Changes with at most twice as many lines between
them share a hunk, since each of these lines is near to a change. One way to fill in
`Services.hunks`.
-/

set_option autoImplicit false

namespace TidySheet.Unified

/-- For each edit, whether it is a change or at most `context` lines behind one; `left` lines are
still near to the change before. -/
def nearBehind {α : Type} (context left : Nat) : List (Edit α) → List Bool
  | [] => []
  | e :: es =>
    if e.isChange then true :: nearBehind context context es
    else decide (0 < left) :: nearBehind context (left - 1) es

/-- For each edit, whether it is near to a change on either side. -/
def near {α : Type} (context : Nat) (es : List (Edit α)) : List Bool :=
  List.zipWith (· || ·) (nearBehind context 0 es)
    (nearBehind context 0 es.reverse).reverse

/-- A run of edits, with the numbers of old and new lines before it. -/
structure Region (α : Type) where
  oldBefore : Nat
  newBefore : Nat
  edits : List (Edit α)

/-- The runs of edits that are marked; `current` is the run under way. -/
def regions {α : Type} (old new : Nat) (current : Option (Region α)) :
    List (Edit α × Bool) → List (Region α)
  | [] => current.toList
  | (e, marked) :: es =>
    let old' := old + if e.old?.isSome then 1 else 0
    let new' := new + if e.new?.isSome then 1 else 0
    if marked then
      let current :=
        match current with
        | some h => { h with edits := h.edits ++ [e] }
        | none => ⟨old, new, [e]⟩
      regions old' new' (some current) es
    else current.toList ++ regions old' new' none es

/-- The range of `count` lines behind `before` others: one line has no count, and no lines have
their place before themselves. -/
def range (before count : Nat) : String :=
  if count = 1 then toString (before + 1)
  else if count = 0 then s!"{before},0"
  else s!"{before + 1},{count}"

def Region.header {α : Type} (h : Region α) : String :=
  let olds := (h.edits.filterMap Edit.old?).length
  let news := (h.edits.filterMap Edit.new?).length
  s!"@@ -{range h.oldBefore olds} +{range h.newBefore news} @@"

/-- Whether no newline ends a line. -/
def isOpen (line : List Char) : Bool :=
  match line.getLast? with
  | some '\n' => false
  | some '\r' => false
  | _ => true

/-- A line as it is shown: a newline is put behind it if none ends it. -/
def hunkLine (e : Edit (List Char)) : HunkLine :=
  let text (line : List Char) : String :=
    String.ofList line ++ if isOpen line then "\n" else ""
  ⟨e.map text, isOpen e.line⟩

def Region.hunk (h : Region (List Char)) : Hunk := ⟨h.header, h.edits.map hunkLine⟩

/-- The hunks between two texts, with `context` lines around changes. -/
def hunks (context : Nat) (old new : String) : List Hunk :=
  let es := dropsFirst [] (script (linesWithEnding old.toList) (linesWithEnding new.toList))
  (regions 0 0 none (es.zip (near context es))).map Region.hunk

end TidySheet.Unified
