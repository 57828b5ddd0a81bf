import TidySheet.Node.Basic
import TidySheet.Token.Basic

/-!
# Leaves from tokens

The leaf that stands for a token has the token's span and, but for the markers of a comment, its
text. `trimStart` and `trimEnd` cut the whitespace and comments off an end of a run of tokens.

* `trimEnd_append`, `trimStart_append` : cutting loses nothing.
-/

set_option autoImplicit false

namespace TidySheet

namespace Token

def hexDigits : List Char := "0123456789abcdefABCDEF".toList

/-- Three, four, six or eight hexadecimal digits behind number signs. -/
def isHexColor (text : List Char) : Bool :=
  let digits := text.dropWhile (· == '#')
  [3, 4, 6, 8].contains digits.length && digits.all hexDigits.contains

/-- Characters between the operands of a value. -/
def operators : List Char := ['/', '+', '*', '=', '>', '<', '~']

/-- The kind of the leaf for a token. -/
def leafKind (t : Token) : Kind :=
  match t.kind with
  | .whitespace | .newline => .space
  | .comment => .multilineComment
  | .lineComment => .singlelineComment
  | .ident => .ident
  | .atKeyword => .atkeyword
  | .hash => if isHexColor t.text then .color else .raw
  | .dollarName => .namedVariable
  | .string => .string
  | .number => .number
  | .uri => .uri
  | .semicolon => .declarationDelimiter
  | .comma => .delimiter
  | .delim c => if operators.contains c then .operator else .raw
  | _ => .raw

/-- The text of the leaf for a token: comments lose their markers. -/
def leafText (t : Token) : List Char :=
  match t.kind with
  | .comment => (t.text.drop 2).dropLast.dropLast
  | .lineComment => t.text.drop 2
  | _ => t.text

/-- The leaf of a given kind that holds a token's whole text. -/
def leafAs (k : Kind) (d : Dialect) (t : Token) : Node :=
  .leaf ⟨k, d, t.span⟩ t.text

def leaf (d : Dialect) (t : Token) : Node :=
  .leaf ⟨t.leafKind, d, t.span⟩ t.leafText

def leaves (d : Dialect) (ts : List Token) : List Node :=
  ts.map (leaf d)

/-- From the first character of the first token to the last one of the last token. -/
def spanOf (ts : List Token) : Span :=
  ⟨(ts.head?.map fun t => t.span.first).getD .unplaced,
    (ts.getLast?.map fun t => t.span.last).getD .unplaced⟩

/-- One leaf over a run of tokens. -/
def joined (k : Kind) (d : Dialect) (ts : List Token) : Node :=
  .leaf ⟨k, d, spanOf ts⟩ (textOf ts)

/-! ## Trivia at the ends -/

/-- The tokens up to the last one that is no trivia, and the trivia behind it. -/
def trimEnd : List Token → List Token × List Token
  | [] => ([], [])
  | t :: ts =>
    match trimEnd ts with
    | ([], trivia) => if t.isTrivia then ([], t :: trivia) else ([t], trivia)
    | (kept, trivia) => (t :: kept, trivia)

/-- The trivia in front, and the tokens from the first one that is none. -/
def trimStart (ts : List Token) : List Token × List Token :=
  (ts.takeWhile isTrivia, ts.dropWhile isTrivia)

theorem trimEnd_append (ts : List Token) : (trimEnd ts).1 ++ (trimEnd ts).2 = ts := by
  induction ts with
  | nil => rfl
  | cons t ts ih =>
    simp only [trimEnd]
    split
    · next trivia h =>
      rw [h] at ih
      split <;> simp_all
    · next kept trivia h hk =>
      rw [hk] at ih
      simp_all

theorem trimStart_append (ts : List Token) : (trimStart ts).1 ++ (trimStart ts).2 = ts := by
  exact List.takeWhile_append_dropWhile

end Token

end TidySheet
