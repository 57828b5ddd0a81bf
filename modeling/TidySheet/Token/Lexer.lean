import TidySheet.ParseError
import TidySheet.Token.Basic
import TidySheet.Token.Extent

/-!
# From characters to tokens

`lexeme` decides the kind and the length of the token at the front of a text by looking a few
characters ahead; `tokens` cuts the text up and places the pieces.

* `textOf_tokens` : the tokens of a text spell that text.
-/

set_option autoImplicit false

namespace TidySheet

/-- What the end of the text cuts off inside a token. -/
inductive Cutoff where
  | comment
  | string
  | url
  deriving DecidableEq, Repr

/-- The error for a cut off token that starts at `p`. -/
def Cutoff.at (p : Position) : Cutoff → ParseError
  | .comment => .unterminatedComment p
  | .string => .unterminatedString p
  | .url => .unclosed .url p

/-- The kind of a token and the number of its characters. -/
structure Extent where
  kind : TokenKind
  length : Nat
  deriving DecidableEq, Repr

def orCutoff (cutoff : Cutoff) (kind : TokenKind) (before : Nat) :
    Option Nat → Except Cutoff Extent
  | some n => .ok ⟨kind, before + n⟩
  | none => .error cutoff

/-- The kind of a token that is a single character. -/
def markKind : Char → TokenKind
  | ':' => .colon
  | ';' => .semicolon
  | ',' => .comma
  | '{' => .leftBrace
  | '}' => .rightBrace
  | '(' => .leftParen
  | ')' => .rightParen
  | c => .delim c

def isUrlName (text : List Char) : Bool :=
  text.map Char.toLower == ['u', 'r', 'l']

/-- The name at the front of `cs`, or the whole `url` if one starts with it. -/
def nameExtent (cs : List Char) : Except Cutoff Extent :=
  let n := nameLength 0 cs
  if isUrlName (cs.take n) && startsUnquoted (cs.drop n) then
    orCutoff .url .uri n (urlLength? (cs.drop n))
  else .ok ⟨.ident, n⟩

/-- The token that starts with `c` and goes on in `cs`. -/
def lexeme (d : Dialect) (c : Char) (cs : List Char) : Except Cutoff Extent :=
  if c == '\n' && d == .sass then .ok ⟨.newline, 1⟩
  else if isBlank c then .ok ⟨.whitespace, 1 + blankLength d cs⟩
  else if c == '/' && cs.head? == some '*' then
    orCutoff .comment .comment 2 (commentLength? cs.tail)
  else if c == '/' && cs.head? == some '/' && d.hasLineComments then
    .ok ⟨.lineComment, 1 + lineLength cs⟩
  else if c == '"' || c == '\'' then orCutoff .string .string 1 (stringLength? c cs)
  else if startsNumber (c :: cs) then .ok ⟨.number, numberLength (c :: cs)⟩
  else if (c == '+' || c == '-') && startsNumber cs then .ok ⟨.number, 1 + numberLength cs⟩
  else if startsName (c :: cs) then nameExtent (c :: cs)
  else if c == '@' && startsName cs then .ok ⟨.atKeyword, 1 + nameLength 0 cs⟩
  else if c == '$' && startsName cs then .ok ⟨.dollarName, 1 + nameLength 0 cs⟩
  else if c == '#' && cs.head?.any isNameChar then .ok ⟨.hash, 1 + nameLength 0 cs⟩
  else .ok ⟨markKind c, 1⟩

/-- The tokens of a text that starts at `p`. Every token takes at least one character. -/
def tokens (d : Dialect) (p : Position) : List Char → Except ParseError (List Token)
  | [] => .ok []
  | c :: cs =>
    match lexeme d c cs with
    | .error cutoff => .error (cutoff.at p)
    | .ok extent =>
      let text := c :: cs.take (extent.length - 1)
      match tokens d (p.after text) (cs.drop (extent.length - 1)) with
      | .error e => .error e
      | .ok ts => .ok (⟨extent.kind, text, .ofText p text⟩ :: ts)
  termination_by cs => cs.length
  decreasing_by simp only [List.length_drop, List.length_cons]; omega

/-- The tokens of a text spell that text. -/
theorem textOf_tokens (d : Dialect) (p : Position) (cs : List Char) (ts : List Token)
    (h : tokens d p cs = .ok ts) : Token.textOf ts = cs := by
  fun_induction tokens d p cs generalizing ts with
  | case1 p => cases h; rfl
  | case2 p c cs cutoff he => cases h
  | case3 p c cs extent he text e ht ih => cases h
  | case4 p c cs extent he text us ht ih =>
    cases h
    simp [ih us ht, text]

end TidySheet
