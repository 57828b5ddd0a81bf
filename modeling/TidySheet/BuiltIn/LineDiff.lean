import TidySheet.Report.Diff

/-!
# Differences between two lists of lines

A script keeps, drops and adds lines; one with the most kept lines is found row by row, each cell
holding the best script for a pair of suffixes. One way to fill in `Services.lineEdits`.

* `olds_script`, `news_script` : a script goes from its one list to its other.
-/

set_option autoImplicit false

namespace TidySheet

/-! ## Lines -/

/-- The text cut behind each newline; the last part may have none. -/
def linesWithNewline : List Char → List (List Char)
  | [] => []
  | c :: cs =>
    if c = '\n' then [c] :: linesWithNewline cs
    else
      match linesWithNewline cs with
      | [] => [[c]]
      | l :: ls => (c :: l) :: ls

/-- A line without its newline and a carriage return before that. -/
def withoutNewline (line : List Char) : List Char :=
  match line.reverse with
  | '\n' :: '\r' :: cs => cs.reverse
  | '\n' :: cs => cs.reverse
  | _ => line

def lines (text : List Char) : List (List Char) := (linesWithNewline text).map withoutNewline

/-- The text cut behind each line ending, which is a newline, a carriage return, or both. -/
def linesWithEnding : List Char → List (List Char)
  | [] => []
  | '\r' :: '\n' :: cs => ['\r', '\n'] :: linesWithEnding cs
  | c :: cs =>
    if c = '\n' ∨ c = '\r' then [c] :: linesWithEnding cs
    else
      match linesWithEnding cs with
      | [] => [[c]]
      | l :: ls => (c :: l) :: ls

/-! ## Scripts -/

namespace Edit

variable {α : Type}

def isChange : Edit α → Bool
  | .keep _ => false
  | _ => true

/-- The line that an edit takes from the old list. -/
def old? : Edit α → Option α
  | .keep a => some a
  | .drop a => some a
  | .add _ => none

/-- The line that an edit puts into the new list. -/
def new? : Edit α → Option α
  | .keep a => some a
  | .drop _ => none
  | .add a => some a

end Edit

/-- A script for two suffixes and the number of lines it keeps. -/
structure Cell (α : Type) where
  kept : Nat
  script : List (Edit α)

/-- The cells of an empty old list: all that is left of the new list is added. -/
def lastRow {α : Type} : List α → List (Cell α)
  | [] => [⟨0, []⟩]
  | y :: ys => ⟨0, (y :: ys).map .add⟩ :: lastRow ys

/-- The cells of `x :: xs` for each suffix of the new list, given those of `xs`. -/
def nextRow {α : Type} [DecidableEq α] (x : α) : List α → List (Cell α) → List (Cell α)
  | [], below :: _ => [⟨below.kept, .drop x :: below.script⟩]
  | y :: ys, below :: belows =>
    let rest := nextRow x ys belows
    match belows, rest with
    | diagonal :: _, right :: _ =>
      if x = y then ⟨diagonal.kept + 1, .keep x :: diagonal.script⟩ :: rest
      else if right.kept ≤ below.kept then ⟨below.kept, .drop x :: below.script⟩ :: rest
      else ⟨right.kept, .add y :: right.script⟩ :: rest
    | _, _ => rest
  | _, [] => []

def rowOf {α : Type} [DecidableEq α] (ys : List α) : List α → List (Cell α)
  | [] => lastRow ys
  | x :: xs => nextRow x ys (rowOf ys xs)

/-- A script from one list to another that keeps as many lines as can be kept. -/
def script {α : Type} [DecidableEq α] (xs ys : List α) : List (Edit α) :=
  match rowOf ys xs with
  | cell :: _ => cell.script
  | [] => []

/-- A row has a script for each suffix of the new list, in their order. -/
inductive IsRow {α : Type} (xs : List α) : List α → List (Cell α) → Prop where
  | nil {c : Cell α} (old : c.script.filterMap Edit.old? = xs)
      (new : c.script.filterMap Edit.new? = []) : IsRow xs [] [c]
  | cons {y : α} {ys : List α} {c : Cell α} {cs : List (Cell α)}
      (old : c.script.filterMap Edit.old? = xs) (new : c.script.filterMap Edit.new? = y :: ys)
      (rest : IsRow xs ys cs) : IsRow xs (y :: ys) (c :: cs)

theorem olds_adds {α : Type} (ys : List α) : (ys.map Edit.add).filterMap Edit.old? = [] := by
  induction ys with
  | nil => rfl
  | cons y ys ih => exact ih

theorem news_adds {α : Type} (ys : List α) : (ys.map Edit.add).filterMap Edit.new? = ys := by
  induction ys with
  | nil => rfl
  | cons y ys ih => exact congrArg (y :: ·) ih

theorem isRow_lastRow {α : Type} : ∀ ys : List α, IsRow [] ys (lastRow ys)
  | [] => .nil rfl rfl
  | y :: ys => .cons (olds_adds (y :: ys)) (news_adds (y :: ys)) (isRow_lastRow ys)

theorem IsRow.head {α : Type} {xs ys : List α} {row : List (Cell α)} (h : IsRow xs ys row) :
    ∃ c cs, row = c :: cs ∧ c.script.filterMap Edit.old? = xs ∧
      c.script.filterMap Edit.new? = ys := by
  cases h with
  | nil old new => exact ⟨_, _, rfl, old, new⟩
  | cons old new _ => exact ⟨_, _, rfl, old, new⟩

theorem isRow_nextRow {α : Type} [DecidableEq α] (x : α) {xs ys : List α} {row : List (Cell α)}
    (h : IsRow xs ys row) : IsRow (x :: xs) ys (nextRow x ys row) := by
  induction h with
  | nil old new =>
    simp only [nextRow]
    exact .nil (congrArg (x :: ·) old) new
  | @cons y ys below belows old new rest ih =>
    obtain ⟨diagonal, ds, hd, dold, dnew⟩ := rest.head
    obtain ⟨right, rs, hr, rold, rnew⟩ := ih.head
    simp only [nextRow]
    rw [hd] at hr ih ⊢
    rw [hr] at ih ⊢
    simp only
    split
    · next hxy =>
      subst hxy
      exact .cons (congrArg (x :: ·) dold) (congrArg (x :: ·) dnew) ih
    · split
      · exact .cons (congrArg (x :: ·) old) new ih
      · exact .cons rold (congrArg (y :: ·) rnew) ih

theorem isRow_rowOf {α : Type} [DecidableEq α] (ys : List α) :
    ∀ xs : List α, IsRow xs ys (rowOf ys xs)
  | [] => isRow_lastRow ys
  | x :: xs => isRow_nextRow x (isRow_rowOf ys xs)

theorem olds_script {α : Type} [DecidableEq α] (xs ys : List α) :
    (script xs ys).filterMap Edit.old? = xs := by
  obtain ⟨c, cs, h, old, _⟩ := (isRow_rowOf ys xs).head
  simp [script, h, old]

theorem news_script {α : Type} [DecidableEq α] (xs ys : List α) :
    (script xs ys).filterMap Edit.new? = ys := by
  obtain ⟨c, cs, h, _, new⟩ := (isRow_rowOf ys xs).head
  simp [script, h, new]

/-! ## Regions -/

/-- Puts the dropped lines of each changed region before the added ones; `added` are those of the
region under way. -/
def dropsFirst {α : Type} (added : List (Edit α)) : List (Edit α) → List (Edit α)
  | [] => added
  | .keep a :: es => added ++ .keep a :: dropsFirst [] es
  | .drop a :: es => .drop a :: dropsFirst added es
  | .add a :: es => dropsFirst (added ++ [.add a]) es

/-- The edits from an old to a new text by lines. If only one of the texts ends in a newline, an
empty line stands for that at the end. -/
def lineEdits (old new : List Char) : List (Edit (List Char)) :=
  let ends (text : List Char) : Bool := text.getLast? == some '\n'
  dropsFirst [] (script (lines old) (lines new)) ++
    (if ends old && !ends new then [.drop []]
    else if !ends old && ends new then [.add []]
    else [])

/-- The number of lines that are new in a text. -/
def changedLines (old new : List Char) : Nat := addedLines (lineEdits old new)

end TidySheet
