import TidySheet.Position

/-!
# Tokens

A token keeps the exact characters it was read from, so that a stylesheet can be written back
character for character.
-/

set_option autoImplicit false

namespace TidySheet

inductive TokenKind where
  /-- A run of blanks; in sass without the newlines. -/
  | whitespace
  /-- One newline character, in sass only. -/
  | newline
  /-- A comment between its markers. -/
  | comment
  /-- A comment that runs to the end of its line, the newline left out. -/
  | lineComment
  | ident
  /-- A name after an at sign. -/
  | atKeyword
  /-- A name after a number sign. -/
  | hash
  /-- A name after a dollar sign. -/
  | dollarName
  | string
  /-- A number with its unit or percent sign. -/
  | number
  /-- A `url` whose argument is not quoted. -/
  | uri
  | colon
  | semicolon
  | comma
  | leftBrace
  | rightBrace
  | leftParen
  | rightParen
  | delim (char : Char)
  deriving DecidableEq, Repr

structure Token where
  kind : TokenKind
  text : List Char
  span : Span
  deriving DecidableEq, Repr

namespace Token

/-- Whitespace and comments. -/
def isTrivia (t : Token) : Bool :=
  match t.kind with
  | .whitespace | .comment | .lineComment => true
  | _ => false

/-- The text that a run of tokens was read from. -/
def textOf (ts : List Token) : List Char :=
  ts.flatMap Token.text

@[simp] theorem textOf_nil : textOf [] = [] := rfl

@[simp] theorem textOf_cons (t : Token) (ts : List Token) :
    textOf (t :: ts) = t.text ++ textOf ts := rfl

@[simp] theorem textOf_append (ts us : List Token) : textOf (ts ++ us) = textOf ts ++ textOf us :=
  List.flatMap_append

end Token

end TidySheet
