/-!
# Configuration text

A reader for the part of TOML that configuration files are written in: comments, table headers, and
keys with booleans, numbers, strings and arrays on one line. Keys may be dotted or quoted. The rest
of TOML, such as arrays over several lines, inline tables and dates, is for another
`Services.config` to read.

* `Toml.parse?` is `none` for a text that is not of this form, that defines a key twice, or that has
  a key or nested arrays deeper than `Toml.maxDepth`.
-/

set_option autoImplicit false

namespace TidySheet.Toml

/-- How a table came to be: by its own header, by the header of a table inside it, or by a dotted
key. -/
inductive Origin where
  | header
  | above
  | dotted
  deriving DecidableEq, Repr

inductive Value where
  | bool (b : Bool)
  | integer (n : Int)
  | float
  | string (s : String)
  | array (items : List Value)
  | table (origin : Origin) (entries : List (String × Value))
  deriving Repr

abbrev Entries := List (String × Value)

/-! ## Words -/

def isBlank (c : Char) : Bool := c == ' ' || c == '\t'

def skipBlanks (cs : List Char) : List Char := cs.dropWhile isBlank

def isBareKeyChar (c : Char) : Bool := c.isAlphanum || c == '_' || c == '-'

/-- Whether a comment or a string may hold a character as it is. -/
def isPlain (c : Char) : Bool := c == '\t' || (32 ≤ c.toNat && c.toNat != 127)

/-- Whether nothing but blanks and a comment is left of a line. -/
def isLineEnd (cs : List Char) : Bool :=
  match skipBlanks cs with
  | [] => true
  | c :: cs => c == '#' && cs.all isPlain

def hexDigit? (c : Char) : Option Nat :=
  if c.isDigit then some (c.toNat - '0'.toNat)
  else if 'a' ≤ c && c ≤ 'f' then some (c.toNat - 'a'.toNat + 10)
  else if 'A' ≤ c && c ≤ 'F' then some (c.toNat - 'A'.toNat + 10)
  else none

/-- The character with the code that `digits` spell. -/
def charOfHex? (digits : List Char) : Option Char := do
  let ds ← digits.mapM hexDigit?
  let n := ds.foldl (fun n d => 16 * n + d) 0
  if n.isValidChar then some (Char.ofNat n) else none

/-! ## Strings -/

def escaped? : Char → Option Char
  | 'b' => some '\x08'
  | 't' => some '\t'
  | 'n' => some '\n'
  | 'f' => some '\x0c'
  | 'r' => some '\r'
  | '"' => some '"'
  | '\\' => some '\\'
  | _ => none

/-- The rest of a string in double quotes, and what stands behind it. -/
def basicString? : List Char → Option (List Char × List Char)
  | '"' :: cs => some ([], cs)
  | '\\' :: 'u' :: a :: b :: c :: d :: cs =>
    match charOfHex? [a, b, c, d], basicString? cs with
    | some x, some (s, rest) => some (x :: s, rest)
    | _, _ => none
  | '\\' :: 'U' :: a :: b :: c :: d :: e :: f :: g :: h :: cs =>
    match charOfHex? [a, b, c, d, e, f, g, h], basicString? cs with
    | some x, some (s, rest) => some (x :: s, rest)
    | _, _ => none
  | '\\' :: c :: cs =>
    match escaped? c, basicString? cs with
    | some x, some (s, rest) => some (x :: s, rest)
    | _, _ => none
  | c :: cs =>
    if isPlain c then (basicString? cs).map fun (s, rest) => (c :: s, rest) else none
  | [] => none

/-- The rest of a string in single quotes, and what stands behind it. -/
def literalString? : List Char → Option (List Char × List Char)
  | '\'' :: cs => some ([], cs)
  | c :: cs =>
    if isPlain c then (literalString? cs).map fun (s, rest) => (c :: s, rest) else none
  | [] => none

/-- A string in quotes, and what stands behind it. -/
def string? : List Char → Option (String × List Char)
  | '"' :: cs => (basicString? cs).map fun (s, rest) => (String.ofList s, rest)
  | '\'' :: cs => (literalString? cs).map fun (s, rest) => (String.ofList s, rest)
  | _ => none

/-! ## Numbers -/

/-- Digits, single underscores between them left out. -/
def digits? (isDigit : Char → Bool) : List Char → Option (List Char)
  | [] => none
  | [c] => if isDigit c then some [c] else none
  | c :: '_' :: cs => if isDigit c then (digits? isDigit cs).map (c :: ·) else none
  | c :: cs => if isDigit c then (digits? isDigit cs).map (c :: ·) else none

def ofDigits (base : Nat) (ds : List Char) : Nat :=
  ds.foldl (fun n c => base * n + ((hexDigit? c).getD 0)) 0

/-- Digits without a zero in front. -/
def decimal? (cs : List Char) : Option Nat :=
  (digits? Char.isDigit cs).bind fun ds =>
    if ds.head? = some '0' ∧ 1 < ds.length then none else some (ofDigits 10 ds)

def dropSign : List Char → List Char
  | '+' :: cs => cs
  | '-' :: cs => cs
  | cs => cs

def fitsWord (n : Int) : Bool := -0x8000000000000000 ≤ n && n < 0x8000000000000000

def integer? (cs : List Char) : Option Int :=
  let n? : Option Int :=
    match cs with
    | '0' :: 'x' :: cs => (digits? (fun c => (hexDigit? c).isSome) cs).map (ofDigits 16 ·)
    | '0' :: 'o' :: cs => (digits? (fun c => '0' ≤ c && c ≤ '7') cs).map (ofDigits 8 ·)
    | '0' :: 'b' :: cs => (digits? (fun c => c == '0' || c == '1') cs).map (ofDigits 2 ·)
    | '-' :: cs => (decimal? cs).map fun n => -(n : Int)
    | '+' :: cs => (decimal? cs).map (↑·)
    | cs => (decimal? cs).map (↑·)
  n?.filter fitsWord

def isExponentMark (c : Char) : Bool := c == 'e' || c == 'E'

/-- An exponent; zeros may stand in front. -/
def exponent? (cs : List Char) : Option Int :=
  (digits? Char.isDigit (dropSign cs)).map fun ds =>
    if cs.head? = some '-' then -(ofDigits 10 ds : Int) else ofDigits 10 ds

/-- Digits and the power of ten to multiply them with. -/
structure Decimal where
  digits : List Char
  exponent : Int
  deriving DecidableEq, Repr

/-- The least number that rounds to infinity: half a unit above the largest binary64 number. -/
def overflowBound : Nat := Nat.pow 2 1024 - Nat.pow 2 970

/-- Whether a number rounds to infinity. A number with more than 400 zeros behind its digits does and
a number below one does not, so that no large power has to be computed. -/
def Decimal.overflows (x : Decimal) : Bool :=
  let n := ofDigits 10 x.digits
  if 0 ≤ x.exponent then
    n != 0 && (400 < x.exponent || overflowBound ≤ n * Nat.pow 10 x.exponent.toNat)
  else
    -x.exponent ≤ x.digits.length && overflowBound * Nat.pow 10 (-x.exponent).toNat ≤ n

/-- A number with a point, an exponent, or both. -/
def fraction? (cs : List Char) : Option Decimal := do
  let mantissa := cs.takeWhile fun c => !isExponentMark c
  let whole := mantissa.takeWhile (· != '.')
  let _ ← decimal? whole
  let before ← digits? Char.isDigit whole
  let behind ←
    match mantissa.dropWhile (· != '.') with
    | [] => some []
    | _ :: ds => digits? Char.isDigit ds
  let exponent ←
    match cs.dropWhile fun c => !isExponentMark c with
    | [] => if behind.isEmpty then none else some 0
    | _ :: e => exponent? e
  return ⟨before ++ behind, exponent - behind.length⟩

/-- Whether a word is a float: one of the special values, or a number that does not round to
positive infinity. -/
def isFloat (cs : List Char) : Bool :=
  let magnitude := dropSign cs
  if magnitude = "inf".toList ∨ magnitude = "nan".toList then true
  else
    match fraction? magnitude with
    | none => false
    | some x => cs.head? == some '-' || !x.overflows

/-- A value that is a single word. -/
def word? (cs : List Char) : Option Value :=
  if cs = "true".toList then some (.bool true)
  else if cs = "false".toList then some (.bool false)
  else
    match integer? cs with
    | some n => some (.integer n)
    | none => if isFloat cs then some .float else none

def isWordChar (c : Char) : Bool :=
  c.isAlphanum || c == '_' || c == '-' || c == '+' || c == '.'

/-! ## Values -/

/-- The most parts that a key may have, and the most arrays inside each other. -/
def maxDepth : Nat := 79

/-- A value and what stands behind it on its line, with at most `depth` arrays inside each other and
at most `fuel` values and items. -/
def value? : (depth fuel : Nat) → List Char → Option (Value × List Char)
  | _, 0, _ => none
  | depth, fuel + 1, cs =>
    match cs with
    | '[' :: cs =>
      match depth with
      | 0 => none
      | depth + 1 => (items? depth fuel (skipBlanks cs)).map fun (vs, rest) => (.array vs, rest)
    | '"' :: cs => (string? ('"' :: cs)).map fun (s, rest) => (.string s, rest)
    | '\'' :: cs => (string? ('\'' :: cs)).map fun (s, rest) => (.string s, rest)
    | cs => (word? (cs.takeWhile isWordChar)).map fun v => (v, cs.dropWhile isWordChar)
where
  /-- The items of an array, and what stands behind its closing bracket. -/
  items? : (depth fuel : Nat) → List Char → Option (List Value × List Char)
    | _, 0, _ => none
    | depth, fuel + 1, cs =>
      match cs with
      | ']' :: rest => some ([], rest)
      | cs =>
        match value? depth fuel cs with
        | none => none
        | some (v, rest) =>
          match skipBlanks rest with
          | ',' :: rest =>
            (items? depth fuel (skipBlanks rest)).map fun (vs, rest) => (v :: vs, rest)
          | ']' :: rest => some ([v], rest)
          | _ => none

/-! ## Keys -/

/-- One part of a key, and what stands behind it. -/
def keyPart? (cs : List Char) : Option (String × List Char) :=
  match cs with
  | '"' :: _ => string? cs
  | '\'' :: _ => string? cs
  | _ =>
    let name := cs.takeWhile isBareKeyChar
    if name.isEmpty then none else some (String.ofList name, cs.dropWhile isBareKeyChar)

/-- A key with at most `parts` parts between dots, and what stands behind it. -/
def key? : (parts : Nat) → List Char → Option (List String × List Char)
  | 0, _ => none
  | parts + 1, cs =>
    match keyPart? cs with
    | none => none
    | some (part, rest) =>
      match skipBlanks rest with
      | '.' :: rest => (key? parts (skipBlanks rest)).map fun (key, rest) => (part :: key, rest)
      | rest => some ([part], rest)

/-! ## Documents -/

inductive Line where
  | blank
  | header (key : List String)
  | entry (key : List String) (value : Value)
  deriving Repr

def line? (cs : List Char) : Option Line :=
  if isLineEnd cs then some .blank
  else
    match skipBlanks cs with
    | '[' :: cs =>
      match key? maxDepth (skipBlanks cs) with
      | some (key, ']' :: rest) => if isLineEnd rest then some (.header key) else none
      | _ => none
    | cs =>
      match key? maxDepth cs with
      | some (key, '=' :: rest) =>
        match value? maxDepth (rest.length + 1) (skipBlanks rest) with
        | some (v, rest) => if isLineEnd rest then some (.entry key v) else none
        | none => none
      | _ => none

/-- The lines of a text; a carriage return before a newline belongs to the line's end. -/
def lines (cs : List Char) : List (List Char) :=
  match cs with
  | [] => [[]]
  | '\r' :: '\n' :: cs => [] :: lines cs
  | c :: cs =>
    if c = '\n' then [] :: lines cs
    else
      match lines cs with
      | [] => [[c]]
      | l :: ls => (c :: l) :: ls

/-- Replaces the value of a key, or adds the key behind the others. -/
def setEntry (name : String) (v : Value) : Entries → Entries
  | [] => [(name, v)]
  | (n, w) :: rest => if n = name then (n, v) :: rest else (n, w) :: setEntry name v rest

def lookup? (name : String) (entries : Entries) : Option Value :=
  (entries.find? fun e => e.1 == name).map (·.2)

/-- Opens the table of a header, and makes those on the way to it. It may be there already only
because it stands above another one. -/
def openTable? : List String → Entries → Option Entries
  | [], _ => none
  | [name], entries =>
    match lookup? name entries with
    | none => some (setEntry name (.table .header []) entries)
    | some (.table .above inner) => some (setEntry name (.table .header inner) entries)
    | some _ => none
  | name :: path, entries =>
    match lookup? name entries with
    | none => (openTable? path []).map fun inner => setEntry name (.table .above inner) entries
    | some (.table origin inner) =>
      (openTable? path inner).map fun inner => setEntry name (.table origin inner) entries
    | some _ => none

/-- Adds a new key to a table that is open for keys, or to one inside it that its dotted path leads
to. That has to be a table of dotted keys, and no table on the way to it may have a header. -/
def addKey? (v : Value) (isOpen : Bool) : List String → Entries → Option Entries
  | [], _ => none
  | [name], entries =>
    if isOpen && (lookup? name entries).isNone then some (setEntry name v entries) else none
  | name :: path, entries =>
    match lookup? name entries with
    | none => (addKey? v true path []).map fun inner => setEntry name (.table .dotted inner) entries
    | some (.table .header _) => none
    | some (.table origin inner) =>
      (addKey? v (origin = .dotted) path inner).map fun inner =>
        setEntry name (.table origin inner) entries
    | some _ => none

/-- Changes the table at a path. -/
def changeTable? (change : Entries → Option Entries) : List String → Entries → Option Entries
  | [], entries => change entries
  | name :: path, entries =>
    match lookup? name entries with
    | some (.table origin inner) =>
      (changeTable? change path inner).map fun inner => setEntry name (.table origin inner) entries
    | _ => none

/-- What is read of a document: its entries and the path of the table under way. -/
structure State where
  entries : Entries
  current : List String

def step (s : State) : Line → Option State
  | .blank => some s
  | .header path => (openTable? path s.entries).map fun entries => ⟨entries, path⟩
  | .entry path v =>
    (changeTable? (addKey? v true path) s.current s.entries).map fun entries =>
      { s with entries := entries }

/-- A text without the mark of its byte order. -/
def dropMark : List Char → List Char
  | '\ufeff' :: cs => cs
  | cs => cs

/-- The entries of a document. -/
def parse? (text : String) : Option Entries := do
  let ls ← (lines (dropMark text.toList)).mapM line?
  let s ← ls.foldlM step ⟨[], []⟩
  return s.entries

end TidySheet.Toml
