import TidySheet.Dialect

/-!
# How far a token reaches

Each function measures, in characters, what a construct takes from the front of a text. None of
them builds the token's text: a token is the measured prefix of what is left, so nothing that is
read can get lost.

* Names hold escapes and interpolations; `nameLength` counts the braces that are still open.
* `commentLength?`, `stringLength?` and `urlLength?` are `none` when the text ends too early.
-/

set_option autoImplicit false

namespace TidySheet

/-! ## Character classes -/

def isBlank (c : Char) : Bool :=
  c == ' ' || c == '\t' || c == '\n' || c == '\r' || c == '\x0c'

/-- Letters, the underscore and everything outside ASCII. -/
def isNameStart (c : Char) : Bool :=
  c.isAlpha || c == '_' || 128 ≤ c.toNat

def isNameChar (c : Char) : Bool :=
  isNameStart c || c.isDigit || c == '-'

/-! ## Blanks and comments -/

/-- Blanks of a whitespace token: sass keeps its newlines apart. -/
def isBlankIn (d : Dialect) (c : Char) : Bool :=
  isBlank c && !(c == '\n' && d == .sass)

def blankLength (d : Dialect) (cs : List Char) : Nat :=
  (cs.takeWhile (isBlankIn d)).length

def lineLength (cs : List Char) : Nat :=
  (cs.takeWhile (· != '\n')).length

/-- Length of a comment from behind its opening marker through its closing one. -/
def commentLength? : List Char → Option Nat
  | '*' :: '/' :: _ => some 2
  | _ :: cs => (commentLength? cs).map (· + 1)
  | [] => none

/-! ## Strings and urls -/

/-- Length of a string from behind its opening quote through its closing one. -/
def stringLength? (quote : Char) : List Char → Option Nat
  | [] => none
  | ['\\'] => none
  | '\\' :: _ :: cs => (stringLength? quote cs).map (· + 2)
  | c :: cs => if c = quote then some 1 else (stringLength? quote cs).map (· + 1)

/-- Length up to and with the first closing parenthesis. -/
def urlLength? : List Char → Option Nat
  | [] => none
  | c :: cs => if c = ')' then some 1 else (urlLength? cs).map (· + 1)

/-- Whether an argument opens here that is not quoted. -/
def startsUnquoted : List Char → Bool
  | '(' :: cs =>
    match cs.find? (fun c => !isBlank c) with
    | some '"' => false
    | some '\'' => false
    | _ => true
  | _ => false

/-! ## Names -/

/-- Length of the rest of a name, inside `depth` open braces of an interpolation.

An escape takes the character behind it along, whatever it is. -/
def nameLength : (depth : Nat) → List Char → Nat
  | _, [] => 0
  | 0, ['\\'] => 1
  | 0, '\\' :: _ :: cs => nameLength 0 cs + 2
  | 0, '#' :: '{' :: cs => nameLength 1 cs + 2
  | 0, '@' :: '{' :: cs => nameLength 1 cs + 2
  | 0, c :: cs => if isNameChar c then nameLength 0 cs + 1 else 0
  | depth + 1, '{' :: cs => nameLength (depth + 2) cs + 1
  | depth + 1, '}' :: cs => nameLength depth cs + 1
  | depth + 1, _ :: cs => nameLength (depth + 1) cs + 1

/-- Whether a name starts here. -/
def startsName : List Char → Bool
  | '-' :: c :: cs =>
    isNameStart c || c == '-' || c == '\\' || (c == '#' && cs.head? == some '{')
  | ['-'] => false
  | '\\' :: cs => !cs.isEmpty
  | '#' :: cs => cs.head? == some '{'
  | '@' :: cs => cs.head? == some '{'
  | c :: _ => isNameStart c
  | [] => false

/-! ## Numbers -/

def startsDigit (cs : List Char) : Bool :=
  cs.head?.any Char.isDigit

/-- Digits, and a point between two parts of them unless one was read before. -/
def digitsLength : (pointRead : Bool) → List Char → Nat
  | _, [] => 0
  | pointRead, c :: cs =>
    if c.isDigit then digitsLength pointRead cs + 1
    else if c == '.' && !pointRead && startsDigit cs then digitsLength true cs + 1
    else 0

/-- A percent sign or a name behind the digits. -/
def unitLength (cs : List Char) : Nat :=
  if cs.head? == some '%' then 1
  else if startsName cs then nameLength 0 cs
  else 0

def numberLength (cs : List Char) : Nat :=
  digitsLength false cs + unitLength (cs.drop (digitsLength false cs))

/-- Whether a number without a sign starts here. -/
def startsNumber : List Char → Bool
  | '.' :: cs => startsDigit cs
  | cs => startsDigit cs

end TidySheet
