import TidySheet.Parse.Statement

/-!
# Stylesheets whose blocks follow the indentation

A line that more deeply indented lines follow opens a block over them: from the newline behind it
through the last deeper line. Blank lines neither open nor end a block, and a line that starts with
a comment opens none.

* `cutNested_append` : cutting off the nested lines loses none.
-/

set_option autoImplicit false

namespace TidySheet.Lines

structure Line where
  /-- The newline that ends the line before. -/
  newline : Option Token
  indent : Option Token
  body : List Token
  deriving DecidableEq, Repr

namespace Line

/-- A line of tokens: whitespace in front is its indent. -/
def ofTokens (newline : Option Token) : List Token → Line
  | [] => ⟨newline, none, []⟩
  | t :: ts => if t.kind = .whitespace then ⟨newline, some t, ts⟩ else ⟨newline, none, t :: ts⟩

def isBlank (l : Line) : Bool := l.body.isEmpty

/-- The width of the indent in characters. -/
def width (l : Line) : Nat :=
  match l.indent with
  | some t => t.text.length
  | none => 0

def startsWithComment (l : Line) : Bool :=
  match l.body with
  | t :: _ => t.kind == .comment || t.kind == .lineComment
  | [] => false

/-- The leaves before a line's body: the newline ends a declaration, the indent is space. -/
def lead (l : Line) : List Node :=
  (l.newline.map fun t => .leaf ⟨.declarationDelimiter, .sass, t.span⟩ ['\n']).toList ++
    (l.indent.map fun t => t.leafAs .space .sass).toList

end Line

/-- Cuts tokens at the newlines, with `newline` before the current line and `line` read of it, last
token first. -/
def cut (newline : Option Token) (line : List Token) : List Token → List Line
  | [] => [.ofTokens newline line.reverse]
  | t :: ts =>
    if t.kind = .newline then .ofTokens newline line.reverse :: cut (some t) [] ts
    else cut newline (t :: line) ts

/-- The lines nested under an indent of `width`, up to the last one that is not blank, and the
lines behind them. -/
def cutNested (width : Nat) : List Line → List Line × List Line
  | [] => ([], [])
  | l :: ls =>
    if l.isBlank then
      match cutNested width ls with
      | ([], _) => ([], l :: ls)
      | (inner, outer) => (l :: inner, outer)
    else if width < l.width then
      let (inner, outer) := cutNested width ls
      (l :: inner, outer)
    else ([], l :: ls)

theorem cutNested_append (width : Nat) (ls : List Line) :
    (cutNested width ls).1 ++ (cutNested width ls).2 = ls := by
  induction ls with
  | nil => rfl
  | cons l ls ih =>
    simp only [cutNested]
    split
    · split
      · rfl
      · next inner outer hne hc =>
        rw [hc] at ih
        simp_all
    · split
      · simp_all
      · rfl

/-- The lines of the block that `l` opens, and the lines behind it. -/
def cutBlock (l : Line) (ls : List Line) : List Line × List Line :=
  if l.startsWithComment then ([], ls) else cutNested l.width ls

theorem cutBlock_append (l : Line) (ls : List Line) :
    (cutBlock l ls).1 ++ (cutBlock l ls).2 = ls := by
  unfold cutBlock
  split
  · rfl
  · exact cutNested_append l.width ls

theorem append_of_cutBlock {l : Line} {ls inner outer : List Line}
    (h : cutBlock l ls = (inner, outer)) : inner ++ outer = ls := by
  rw [← cutBlock_append l ls, h]

theorem length_cutBlock (l : Line) (ls : List Line) :
    (cutBlock l ls).1.length + (cutBlock l ls).2.length = ls.length := by
  rw [← List.length_append, cutBlock_append]

/-- The nodes of a run of lines. -/
def nodesOf : List Line → Except ParseError (List Node)
  | [] => .ok []
  | l :: ls =>
    if l.isBlank then do
      let rest ← nodesOf ls
      return l.lead ++ rest
    else if (cutBlock l ls).1.isEmpty then do
      let own ← Statement.withoutBlock .sass l.body
      let rest ← nodesOf ls
      return l.lead ++ own ++ rest
    else do
      let inner ← nodesOf (cutBlock l ls).1
      let own ← Statement.withBlock .sass l.body (.ofChildren .block .sass inner)
      let rest ← nodesOf (cutBlock l ls).2
      return l.lead ++ own :: rest
  termination_by ls => ls.length
  decreasing_by
    all_goals
      have := length_cutBlock l ls
      simp only [List.length_cons]
      omega

def nodes (ts : List Token) : Except ParseError (List Node) :=
  nodesOf (cut none [] ts)

end TidySheet.Lines
